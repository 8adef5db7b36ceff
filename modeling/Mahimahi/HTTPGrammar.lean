import Mahimahi.HTTPRoundTrip
import Mahimahi.Tokenize

/-!
# Well-formed responses

What a server may send: a status line, header lines, a blank line and a body
that is framed by the absence of a body, by `Content-Length` or by chunks.
The grammar is stated over the bytes; the lemmas say that the parser takes
them for what they are: the tokens of the status line first
(`statusCode_eq`), then the chunks (`Chunks.exits`), then the whole
response.
-/

namespace Mahimahi

/-! ## Tokens -/

theorem occurrences_byte {c : UInt8} {s t : Bytes} {i : Nat} (h : c ∉ s) :
    occurrences [c] i (s ++ c :: t) = (i + s.length) :: occurrences [c] (i + s.length + 1) t := by
  rw [occurrences_of_find (List.cons_ne_nil _ _) (find_byte_eq_some h), List.append_cons,
    List.drop_left' (by simp)]

theorem occurrences_bounds {c : UInt8} {s : Bytes} {i j : Nat} (h : j ∈ occurrences [c] i s) :
    i ≤ j ∧ j < i + s.length := by
  obtain ⟨k, rfl, hplace⟩ := (mem_occurrences (List.cons_ne_nil _ _)).mp h
  have hend := add_length_le_of_prefix (List.cons_ne_nil _ _) hplace
  rw [List.length_singleton] at hend
  omega

theorem innerTokens_ok (str separator : Bytes) : ∀ (i : Nat) (js : List Nat),
    (∀ j ∈ i :: js, j + separator.length ≤ str.length) →
    ∃ t ts, innerTokens str separator i js = .ok (t :: ts)
  | i, [], h => by
      simp [innerTokens, substr_of_le (h i (by simp))]
  | i, j :: js, h => by
      obtain ⟨t, ts, hts⟩ := innerTokens_ok str separator j js fun k hk => h k (by simp [hk])
      simp [innerTokens, substr_of_le (h i (by simp)), hts]

theorem split_spaces {a b c : Bytes} (ha : 32 ∉ a) (hb : 32 ∉ b) :
    ∃ t ts, split (a ++ 32 :: (b ++ 32 :: c)) [32] = .ok (a :: b :: t :: ts) := by
  have hocc : occurrences [32] 0 (a ++ 32 :: (b ++ 32 :: c))
      = a.length :: (a.length + 1 + b.length) :: occurrences [32] (a.length + 1 + b.length + 1) c := by
    rw [occurrences_byte ha, occurrences_byte hb]
    simp
  have hlen : (a ++ 32 :: (b ++ 32 :: c)).length = a.length + 1 + b.length + 1 + c.length := by
    simp only [List.length_append, List.length_cons]
    omega
  obtain ⟨t, ts, hts⟩ := innerTokens_ok (a ++ 32 :: (b ++ 32 :: c)) [32] (a.length + 1 + b.length)
    (occurrences [32] (a.length + 1 + b.length + 1) c) (by
      intro j hj
      rw [hlen]
      rcases List.mem_cons.mp hj with rfl | hj
      · simp only [List.length_singleton]
        omega
      · have := occurrences_bounds hj
        simp only [List.length_singleton]
        omega)
  have hsub : sub64 (sub64 (a.length + 1 + b.length) a.length) 1 = b.length := by
    rw [sub64_of_le (show a.length ≤ a.length + 1 + b.length by omega),
      sub64_of_le (show 1 ≤ a.length + 1 + b.length - a.length by omega)]
    omega
  have hfirst : substr (a ++ 32 :: (b ++ 32 :: c)) 0 a.length = .ok a := by
    rw [substr_of_le (Nat.zero_le _), List.drop_zero, List.take_left]
  have hsecond : substr (a ++ 32 :: (b ++ 32 :: c)) (a.length + 1) b.length = .ok b := by
    have hdrop : (a ++ 32 :: (b ++ 32 :: c)).drop (a.length + 1) = b ++ 32 :: c := by
      rw [List.append_cons, List.drop_left' (by simp)]
    rw [substr_of_le (by rw [hlen]; omega), hdrop, List.take_left]
  refine ⟨t, ts, ?_⟩
  rw [split, hocc]
  dsimp only
  rw [hfirst, ok_bind, innerTokens]
  simp only [List.length_singleton, hsub, hsecond, hts, ok_bind, pure_eq_ok]

/-- Version, three-digit code and reason. -/
structure IsStatusLine (line code : Bytes) : Prop where
  noCrlf : NoCrlf line
  tokens : ∃ version reason, line = version ++ 32 :: (code ++ 32 :: reason) ∧ 32 ∉ version
  number : IsNumber 10 code
  length : code.length = 3

theorem statusCode_eq {m : HTTPResponse} {code : Bytes} (h : IsStatusLine m.firstLine code)
    (hstate : m.state ≠ .firstLinePending) : m.statusCode = .ok code := by
  obtain ⟨version, reason, hline, hversion⟩ := h.tokens
  have hcode : 32 ∉ code := fun hmem =>
    (isDigitOf_facts (by omega) (h.number.digits 32 hmem)).2.2.2.2.2.2 rfl
  obtain ⟨t, ts, hsplit⟩ := split_spaces (c := reason) hversion hcode
  have hspace : split m.firstLine (ascii " ") = .ok (version :: code :: t :: ts) := by
    rw [hline]
    exact hsplit
  simp [HTTPResponse.statusCode, hstate, hspace]

/-! ## Chunks -/

namespace ChunkedBodyParser

/-- A chunk header for a chunk of `n` bytes: the size, and an extension. -/
structure IsChunkHdr (n : Nat) (hdr : Bytes) : Prop where
  noCrlf : NoCrlf hdr
  size : ∃ digits ext, hdr = digits ++ ext ∧ IsNumber 16 digits ∧ digitsValue 16 digits = n ∧
    (ext = [] ∨ ∃ c t, ext = c :: t ∧ (c = 59 ∨ c = 32))

theorem hexString_eq {n : Nat} {hdr : Bytes} (h : IsChunkHdr n hdr) :
    ∃ digits pos, IsNumber 16 digits ∧ digitsValue 16 digits = n ∧ pos ≤ hdr.length ∧
      (find (ascii ";") (hdr ++ crlf)).or (find crlf (hdr ++ crlf)) = some pos ∧
      (hdr.take pos = digits ∨ ∃ t, hdr.take pos = digits ++ 32 :: t) := by
  have hcrlf : find crlf (hdr ++ crlf) = some hdr.length := by
    have := (find_crlf_eq_length hdr []).mpr h.noCrlf
    rwa [List.append_nil] at this
  obtain ⟨digits, ext, rfl, hnumber, hvalue, hext⟩ := h.size
  have h59 : 59 ∉ digits := fun hmem =>
    (isDigitOf_facts (Nat.le_refl _) (hnumber.digits 59 hmem)).2.2.2.2.2.1 rfl
  have hnone (s : Bytes) (hs : 59 ∉ s) : find (ascii ";") (s ++ crlf) = none := by
    refine find_byte_eq_none (c := 59) ?_
    simp [hs, crlf, ascii]
  refine ⟨digits, ?_⟩
  rcases hext with rfl | ⟨c, t, rfl, rfl | rfl⟩
  · refine ⟨digits.length, hnumber, hvalue, by simp, ?_, .inl (by simp)⟩
    rw [List.append_nil] at hcrlf ⊢
    rw [hnone _ h59, hcrlf]
    rfl
  · have hfind : find (ascii ";") (digits ++ 59 :: t ++ crlf) = some digits.length := by
      rw [List.append_assoc]
      exact find_byte_eq_some h59
    exact ⟨digits.length, hnumber, hvalue, by simp, by rw [hfind]; rfl, .inl (by simp)⟩
  · by_cases hmem : 59 ∈ t
    · obtain ⟨s, u, rfl, hs⟩ := List.eq_append_cons_of_mem hmem
      have h59' : 59 ∉ digits ++ 32 :: s := by simp [h59, hs]
      have hfind : find (ascii ";") (digits ++ 32 :: (s ++ 59 :: u) ++ crlf)
          = some (digits ++ 32 :: s).length := by
        have := find_byte_eq_some (t := u ++ crlf) h59'
        show find [59] _ = _
        simpa only [List.append_assoc, List.cons_append] using this
      refine ⟨(digits ++ 32 :: s).length, hnumber, hvalue, ?_, by rw [hfind]; rfl, .inr ⟨s, ?_⟩⟩
      · simp only [List.length_append, List.length_cons]
        omega
      · have : digits ++ 32 :: (s ++ 59 :: u) = (digits ++ 32 :: s) ++ 59 :: u := by simp
        rw [this, List.take_left]
    · refine ⟨(digits ++ 32 :: t).length, hnumber, hvalue, Nat.le_refl _, ?_, .inr ⟨t, ?_⟩⟩
      · rw [hnone _ (by simp [h59, hmem]), hcrlf]
        rfl
      · rw [List.take_length]

theorem substr_ending (hdr : Bytes) :
    substr (hdr ++ crlf) (sub64 (hdr ++ crlf).length 2) 2 = .ok crlf := by
  have hlen : (hdr ++ crlf).length = hdr.length + 2 := by
    rw [List.length_append]
    rfl
  rw [hlen, sub64_of_le (show 2 ≤ hdr.length + 2 by omega), Nat.add_sub_cancel,
    substr_of_le (by rw [hlen]; omega), List.drop_left]
  rfl

theorem getChunkSize_eq {n : Nat} {hdr : Bytes} (h : IsChunkHdr n hdr) (hn : n < 2 ^ 32) :
    getChunkSize (hdr ++ crlf) = .ok n := by
  obtain ⟨digits, pos, hnumber, hvalue, hpos, hfind, htake⟩ := hexString_eq h
  have h32 : 32 ∉ digits := fun hmem =>
    (isDigitOf_facts (Nat.le_refl _) (hnumber.digits 32 hmem)).2.2.2.2.2.2 rfl
  have hending := substr_ending hdr
  have hhex : substr (hdr ++ crlf) 0 pos = .ok (hdr.take pos) := by
    rw [substr_of_le (Nat.zero_le _), List.drop_zero, List.take_append_of_le_length hpos]
  have hatoi := myatoi_digits (Nat.le_refl _) hnumber (by omega)
  rw [hvalue] at hatoi
  have hmod : ((n : Int) % 2 ^ 32).toNat = n := by omega
  rcases htake with htake | ⟨t, htake⟩
  · have hspace : find (ascii " ") digits = none := find_byte_eq_none h32
    rw [htake] at hhex
    simp only [getChunkSize, hending, hfind, hhex, hspace, hatoi, ok_bind, beq_self_eq_true,
      assertThat_true, pure_eq_ok, hmod]
  · have hspace : find (ascii " ") (digits ++ 32 :: t) = some digits.length := find_byte_eq_some h32
    rw [htake] at hhex
    simp only [getChunkSize, hending, hfind, hhex, hspace, List.take_left, hatoi, ok_bind,
      beq_self_eq_true, assertThat_true, pure_eq_ok, hmod]

/-- What stands behind the last chunk: header lines where they have been
announced, and a blank line. -/
structure IsTrailer (enabled : Bool) (t : Bytes) : Prop where
  lines : ∃ lines : List Bytes, (enabled = true ↔ lines ≠ []) ∧
    (∀ line ∈ lines, NoCrlf line ∧ line ≠ []) ∧ t = lines.flatMap (· ++ crlf) ++ crlf

/-- The chunks, the last chunk and the trailer; the sizes of the chunks are
listed. -/
inductive ChunkedBody (enabled : Bool) : List Nat → Bytes → Prop where
  | last {hdr t} : IsChunkHdr 0 hdr → IsTrailer enabled t →
      ChunkedBody enabled [] (hdr ++ crlf ++ t)
  | chunk {hdr data sizes s} : IsChunkHdr data.length hdr → data ≠ [] →
      ChunkedBody enabled sizes s →
      ChunkedBody enabled (data.length :: sizes) (hdr ++ crlf ++ (data ++ crlf ++ s))

/-- Inside a line there is no line ending, whatever follows it. -/
theorem not_crlf_prefix_drop {line : Bytes} {j : Nat} (rest : Bytes) (hline : NoCrlf line)
    (hj : j < line.length) : ¬ crlf <+: (line ++ crlf ++ rest).drop j :=
  not_prefix_of_find ((find_crlf_eq_length line rest).mpr hline) hj

theorem not_crlf_prefix {line : Bytes} (rest : Bytes) (hline : NoCrlf line) (hne : line ≠ []) :
    ¬ crlf <+: line ++ crlf ++ rest :=
  not_crlf_prefix_drop (j := 0) rest hline (List.length_pos_iff.mpr hne)

/-- The blank line stands neither in a line nor across its ending, if another line follows. -/
theorem blankLine_not_inside {line X : Bytes} (hline : NoCrlf line) (hX : ¬ crlf <+: X) :
    ∀ j < line.length + 2, ¬ (crlf ++ crlf) <+: (line ++ crlf ++ X).drop j := by
  intro j hj hp
  rcases Nat.lt_or_ge j line.length with hj' | hj'
  · exact not_crlf_prefix_drop X hline hj' ((List.prefix_append crlf crlf).trans hp)
  · obtain rfl | rfl : j = line.length ∨ j = line.length + 1 := by omega
    · rw [List.append_assoc, List.drop_left, List.prefix_append_right_inj] at hp
      exact hX hp
    · have hdrop : (line ++ crlf ++ X).drop (line.length + 1) = 10 :: X := by
        rw [List.append_assoc, List.drop_append]
        simp [crlf, ascii]
      rw [hdrop] at hp
      simp [crlf, ascii] at hp

theorem find_blankLine (rest : Bytes) : ∀ lines : List Bytes, lines ≠ [] →
    (∀ line ∈ lines, NoCrlf line ∧ line ≠ []) →
    find (crlf ++ crlf) (lines.flatMap (· ++ crlf) ++ crlf ++ rest)
      = some ((lines.flatMap (· ++ crlf)).length - 2)
  | [], h, _ => absurd rfl h
  | line :: lines, _, h => by
      have hline := h line (by simp)
      cases lines with
      | nil =>
          have hdrop : (line ++ crlf ++ (crlf ++ rest)).drop line.length = crlf ++ crlf ++ rest := by
            rw [List.append_assoc, List.drop_left, List.append_assoc]
          have hfind : find (crlf ++ crlf) (crlf ++ crlf ++ rest) = some 0 := by
            simp [find, crlf, ascii]
          have hinside : ∀ j < line.length,
              ¬ (crlf ++ crlf) <+: (line ++ crlf ++ (crlf ++ rest)).drop j := by
            intro j hj hp
            exact not_crlf_prefix_drop _ hline.1 hj ((List.prefix_append crlf crlf).trans hp)
          have := find_drop (crlf ++ crlf) (line ++ crlf ++ (crlf ++ rest)) line.length (by simp) hinside
          rw [hdrop, hfind] at this
          simpa [show crlf.length = 2 from rfl] using this
      | cons next lines =>
          have hnext := h next (by simp)
          have ih := find_blankLine rest (next :: lines) (by simp) fun l hl => h l (by simp [hl])
          generalize hX : (next :: lines).flatMap (· ++ crlf) ++ crlf ++ rest = X at ih
          have hlen : 2 ≤ ((next :: lines).flatMap (· ++ crlf)).length := by
            simp only [List.flatMap_cons, List.length_append, show crlf.length = 2 from rfl]
            omega
          have hstart : ¬ crlf <+: X := by
            have := not_crlf_prefix (lines.flatMap (· ++ crlf) ++ crlf ++ rest) hnext.1 hnext.2
            rw [← hX]
            simpa using this
          have hflat : (line :: next :: lines).flatMap (· ++ crlf) ++ crlf ++ rest
              = line ++ crlf ++ X := by
            rw [List.flatMap_cons, List.append_assoc, List.append_assoc, ← hX]
            simp only [List.append_assoc]
          have hdrop : (line ++ crlf ++ X).drop (line.length + 2) = X :=
            List.drop_left' (by rw [List.length_append]; rfl)
          have := find_drop (crlf ++ crlf) (line ++ crlf ++ X) (line.length + 2)
            (by simp [show crlf.length = 2 from rfl]) (blankLine_not_inside hline.1 hstart)
          rw [hdrop, ih] at this
          have hlength : ((line :: next :: lines).flatMap (· ++ crlf)).length
              = line.length + 2 + ((next :: lines).flatMap (· ++ crlf)).length := by
            rw [List.flatMap_cons, List.length_append, List.length_append]
            rfl
          rw [hflat, this, Option.map_some, Option.some.injEq]
          omega

theorem IsTrailer.find_needle {p : ChunkedBodyParser} {t : Bytes} (h : IsTrailer p.trailersEnabled t)
    (rest : Bytes) :
    ∃ loc, find p.needle (t ++ rest) = some loc ∧ loc + p.needle.length = t.length := by
  obtain ⟨lines, henabled, hlines, rfl⟩ := h.lines
  cases he : p.trailersEnabled with
  | false =>
      have hnil : lines = [] := by
        by_contra hne
        rw [henabled.mpr hne] at he
        cases he
      refine ⟨0, ?_, ?_⟩
      · simp [needle, he, hnil, find, crlf, ascii]
      · simp [needle, he, hnil]
  | true =>
      have hne := henabled.mp he
      have hneedle : p.needle = crlf ++ crlf := by
        rw [needle, he]
        rfl
      have hlen : 2 ≤ (lines.flatMap (· ++ crlf)).length := by
        obtain ⟨line, lines, rfl⟩ := List.exists_cons_of_ne_nil hne
        simp only [List.flatMap_cons, List.length_append, show crlf.length = 2 from rfl]
        omega
      refine ⟨_, by rw [hneedle]; exact find_blankLine rest lines hne hlines, ?_⟩
      rw [hneedle, List.length_append, List.length_append, show crlf.length = 2 from rfl]
      omega

/-! ### The parser and the chunks -/

theorem small_of_advances {n : Nat} {q q' : ChunkedBodyParser} (hq : q.SmallSize)
    (hadv : Advances q q') (h : ∀ u, Visits (readTurn n) q' u → u.SmallSize) :
    ∀ u, Visits (readTurn n) q u → u.SmallSize := by
  intro u hu
  cases hu with
  | refl => exact hq
  | again hb hrest =>
      rw [readTurn_of_advances hadv] at hb
      cases hb
      exact h u hrest

theorem small_of_endsAt {n loc : Nat} {q : ChunkedBodyParser} (hq : q.SmallSize)
    (hends : q.EndsAt loc) : ∀ u, Visits (readTurn n) q u → u.SmallSize := by
  intro u hu
  cases hu with
  | refl => exact hq
  | again hb _ =>
      rw [readTurn_of_endsAt hends] at hb
      split at hb <;> cases hb

theorem advances_hdr {n : Nat} {hdr x : Bytes} {q : ChunkedBodyParser} (h : IsChunkHdr n hdr)
    (hn : n < 2 ^ 32) (hstate : q.state = .chunkHdr) (hbuffer : q.parserBuffer = hdr ++ crlf ++ x) :
    Advances q { q with
      currentChunkSize := n
      state := if n = 0 then .trailer else .chunk
      parsedSoFar := q.parsedSoFar + (hdr.length + 2)
      parserBuffer := x } := by
  have hline : find crlf q.parserBuffer = some hdr.length := by
    rw [hbuffer]
    exact (find_crlf_eq_length hdr x).mpr h.noCrlf
  have htake : q.parserBuffer.take (hdr.length + 2) = hdr ++ crlf := by
    rw [hbuffer]
    exact List.take_left' (by rw [List.length_append]; rfl)
  have hdrop : q.parserBuffer.drop (hdr.length + 2) = x := by
    rw [hbuffer]
    exact List.drop_left' (by rw [List.length_append]; rfl)
  have hadv := Advances.header hstate hline (by rw [htake]; exact getChunkSize_eq h hn)
  rwa [hdrop] at hadv

theorem advances_data (data : Bytes) {x : Bytes} {q : ChunkedBodyParser} (hstate : q.state = .chunk)
    (hsize : q.currentChunkSize = data.length) (hsmall : q.SmallSize)
    (hbuffer : q.parserBuffer = data ++ crlf ++ x) :
    Advances q { q with
      state := .chunkHdr
      parsedSoFar := q.parsedSoFar + (data.length + 2)
      parserBuffer := x } := by
  have hlen : q.parserBuffer.length = data.length + 2 + x.length := by
    rw [hbuffer, List.length_append, List.length_append]
    rfl
  have hu : u32 (q.currentChunkSize + 2) = data.length + 2 := by
    rw [hsmall.u32, hsize]
  have hsub : substr q.parserBuffer q.currentChunkSize 2 = .ok crlf := by
    rw [hsize, substr_of_le (by omega), hbuffer, List.append_assoc, List.drop_left]
    rfl
  have hdrop : q.parserBuffer.drop (data.length + 2) = x := by
    rw [hbuffer]
    exact List.drop_left' (by rw [List.length_append]; rfl)
  have hne : q.parserBuffer ≠ [] := by
    intro hnil
    rw [hnil, List.length_nil] at hlen
    omega
  have hadv := Advances.chunk hstate hne (by omega) hsub
  rwa [hu, hdrop] at hadv

/-- In front of a chunked body a parser gets to the trailer. -/
theorem ChunkedBody.visits_trailer {n : Nat} {enabled : Bool} {sizes : List Nat} {s rest : Bytes}
    {q : ChunkedBodyParser} (h : ChunkedBody enabled sizes s)
    (hsizes : ∀ size ∈ sizes, size + 2 < 2 ^ 32) (hstate : q.state = .chunkHdr)
    (hsmall : q.SmallSize) (hbuffer : q.parserBuffer = s ++ rest) :
    ∃ t trailer, IsTrailer enabled trailer ∧ Visits (readTurn n) q t ∧ t.state = .trailer ∧
      t.parserBuffer = trailer ++ rest ∧ t.parsedSoFar + trailer.length = q.parsedSoFar + s.length ∧
      t.SmallSize ∧ ((∀ u, Visits (readTurn n) t u → u.SmallSize) →
        ∀ u, Visits (readTurn n) q u → u.SmallSize) := by
  induction h generalizing q with
  | @last hdr trailer hhdr htrailer =>
      have hadv := advances_hdr (x := trailer ++ rest) hhdr (by decide) hstate
        (by rw [hbuffer, List.append_assoc])
      refine ⟨_, trailer, htrailer, .again (readTurn_of_advances hadv) (.refl _), rfl, rfl, ?_,
        (show 0 + 2 < 2 ^ 32 by decide), small_of_advances hsmall hadv⟩
      simp only [List.length_append, show crlf.length = 2 from rfl]
      omega
  | @chunk hdr data sizes s hhdr hne _ ih =>
      have hsize : data.length + 2 < 2 ^ 32 := hsizes data.length (by simp)
      have hpos : data.length ≠ 0 := fun hz => hne (List.length_eq_zero_iff.mp hz)
      have hadv := advances_hdr (x := data ++ crlf ++ (s ++ rest)) hhdr (by omega) hstate
        (by rw [hbuffer]; simp only [List.append_assoc])
      rw [if_neg hpos] at hadv
      have hadv₁ := advances_data data (x := s ++ rest) (q := { q with
        currentChunkSize := data.length
        state := .chunk
        parsedSoFar := q.parsedSoFar + (hdr.length + 2)
        parserBuffer := data ++ crlf ++ (s ++ rest) }) rfl rfl hsize rfl
      obtain ⟨t, trailer, htrailer, hvisits, hstate', hbuffer', hparsed, hsmall', hrest⟩ :=
        ih (q := { q with
          currentChunkSize := data.length
          state := .chunkHdr
          parsedSoFar := q.parsedSoFar + (hdr.length + 2) + (data.length + 2)
          parserBuffer := s ++ rest }) (fun size h => hsizes size (by simp [h])) rfl hsize rfl
      refine ⟨t, trailer, htrailer, .again (readTurn_of_advances hadv)
        (.again (readTurn_of_advances hadv₁) hvisits), hstate', hbuffer', ?_, hsmall', fun h => ?_⟩
      · rw [hparsed]
        simp only [List.length_append, show crlf.length = 2 from rfl]
        omega
      · exact small_of_advances hsmall hadv (small_of_advances hsize hadv₁ (hrest h))

/-- The parser in front of a chunked body comes to where the body ends. -/
theorem ChunkedBody.visits {n : Nat} {sizes : List Nat} {s rest : Bytes} {q : ChunkedBodyParser}
    (h : ChunkedBody q.trailersEnabled sizes s) (hsizes : ∀ size ∈ sizes, size + 2 < 2 ^ 32)
    (hstate : q.state = .chunkHdr) (hsmall : q.SmallSize) (hbuffer : q.parserBuffer = s ++ rest) :
    (∃ t loc, Visits (readTurn n) q t ∧ t.EndsAt loc ∧ t.ackedSoFar = q.ackedSoFar ∧
      t.parsedSoFar + (loc + t.needle.length) = q.parsedSoFar + s.length) ∧
    ∀ u, Visits (readTurn n) q u → u.SmallSize := by
  obtain ⟨t, trailer, htrailer, hvisits, htstate, htbuffer, hparsed, htsmall, hrest⟩ :=
    h.visits_trailer (n := n) hsizes hstate hsmall hbuffer
  have hprogress := Visits.progress hvisits
  rw [← hprogress.trailers] at htrailer
  obtain ⟨loc, hfind, hloc⟩ := htrailer.find_needle rest
  have hends : t.EndsAt loc := ⟨htstate, by rw [htbuffer]; exact hfind⟩
  refine ⟨⟨t, loc, hvisits, hends, hprogress.acked, by rw [hloc, hparsed]⟩, ?_⟩
  exact hrest (small_of_endsAt htsmall hends)

/-- **A fresh parser takes a chunked body off the bytes that begin with it.** -/
theorem ChunkedBody.read {enabled : Bool} {sizes : List Nat} {s : Bytes} (rest : Bytes)
    (h : ChunkedBody enabled sizes s) (hsizes : ∀ size ∈ sizes, size + 2 < 2 ^ 32) :
    (∃ p, (initial enabled).read (s ++ rest) = .ok (some s.length, p)) ∧
      (initial enabled).SmallSizes (s ++ rest) := by
  have hpos : 0 < s.length := by
    cases h <;> simp only [List.length_append, show crlf.length = 2 from rfl] <;> omega
  obtain ⟨⟨t, loc, hvisits, hends, hacked, hparsed⟩, hsmall⟩ := ChunkedBody.visits
    (n := (s ++ rest).length) (q := (initial enabled).feed (s ++ rest)) h hsizes rfl
    (show 0 + 2 < 2 ^ 32 by decide) rfl
  replace hacked : t.ackedSoFar = 0 := hacked
  replace hparsed : t.parsedSoFar + (loc + t.needle.length) = s.length := by
    rw [hparsed]
    exact Nat.zero_add _
  have hahead : t.Ahead loc := by
    rw [Ahead, hacked, hparsed]
    exact hpos
  have hturn := readTurn_of_endsAt (n := (s ++ rest).length) hends
  rw [if_pos hahead] at hturn
  have hread := read_eq hvisits (.leave hturn)
  rw [finish, hparsed, hacked] at hread
  exact ⟨⟨_, hread⟩, hsmall⟩

end ChunkedBodyParser

/-! ## Responses -/

/-- The size is known: the message takes that many bytes. -/
theorem HTTPMessage.takes_known {X : Type} [HTTPMessageType X] [HTTPBodyLaws X] {m : HTTPMessage X}
    (body rest : Bytes) (hstate : m.state = .bodyPending) (hbody : m.body = [])
    (hplain : HTTPBodyView.Plain m.derived) (hsize : m.expectedBodySize = (true, body.length)) :
    m.SmallReads (body ++ rest) ∧
      Ends (m.readInBody (body ++ rest)) (body ++ rest) m body.length := by
  have hk : m.expectedBodySize.1 = true := by rw [hsize]
  have hdue : m.Due :=
    ⟨hstate, by simp [hbody], by simp [hk], fun _ => hplain⟩
  refine ⟨fun hu => ?_, (ends_known_iff hdue hk).mpr ?_⟩
  · rw [hk] at hu
    cases hu
  · rw [hsize, hbody]
    simp

theorem HTTPMessage.hasHeader_of_getHeaderValue {X : Type} {m : HTTPMessage X} {name value : Bytes}
    (h : m.getHeaderValue name = .ok value) : m.hasHeader name = true := by
  rw [getHeaderValue] at h
  split at h
  · next header hfind =>
      rw [hasHeader, List.any_eq_true]
      exact ⟨header, List.mem_of_find?_eq_some hfind,
        List.find?_some (p := fun h : HTTPHeader => equivalentStrings h.key name) hfind⟩
  · cases h

/-- A header line, and what the parser makes of it. -/
structure IsHeaderLine (line : Bytes) (h : HTTPHeader) : Prop where
  noCrlf : NoCrlf line
  nonempty : line ≠ []
  parsed : HTTPHeader.ofLine line = .ok h

namespace HTTPResponse

/-- The response to `request` as it is when its headers have come. -/
def opened (request : HTTPRequest) (line : Bytes) (headers : List HTTPHeader) : HTTPResponse where
  expectedBodySize := (false, npos)
  firstLine := line
  headers := headers
  body := []
  state := .bodyPending
  derived := ⟨request, none⟩

/-- Whether the status and the request leave room for a body. -/
structure MayHaveBody (m : HTTPResponse) (code : Bytes) : Prop where
  not204 : code ≠ ascii "204"
  not304 : code ≠ ascii "304"
  notHead : m.request.isHead = .ok false

/-- A body that is framed as the headers say; the sizes of its chunks are
listed. -/
inductive Framed (m : HTTPResponse) (code : Bytes) : List Nat → Bytes → Prop where
  | noBody : code = ascii "204" ∨ code = ascii "304" ∨ m.request.isHead = .ok true →
      Framed m code [] []
  | chunked {sizes body} : m.MayHaveBody code → m.isChunked = .ok true →
      ChunkedBodyParser.ChunkedBody (m.hasHeader (ascii "Trailer")) sizes body →
      Framed m code sizes body
  | contentLength {digits body} : m.MayHaveBody code →
      m.hasHeader (ascii "Transfer-Encoding") = false →
      m.getHeaderValue (ascii "Content-Length") = .ok digits → IsNumber 10 digits →
      digitsValue 10 digits = body.length → body.length < 2 ^ 63 → Framed m code [] body

/-- A final response to `request`. -/
structure IsFinal (request : HTTPRequest) (line code : Bytes) (headers : List HTTPHeader)
    (sizes : List Nat) (body s : Bytes) : Prop where
  status : IsStatusLine line code
  final : code.head? ≠ some 49
  framed : (opened request line headers).Framed code sizes body
  bytes : ∃ lines, List.Forall₂ IsHeaderLine lines headers ∧
    s = line ++ crlf ++ (lines.flatMap (· ++ crlf) ++ (crlf ++ body))

/-- An interim response: 1xx, and no body. -/
structure IsInterim (line code : Bytes) (headers : List HTTPHeader) (s : Bytes) : Prop where
  status : IsStatusLine line code
  interim : code.head? = some 49
  bytes : ∃ lines, List.Forall₂ IsHeaderLine lines headers ∧
    s = line ++ crlf ++ (lines.flatMap (· ++ crlf) ++ (crlf ++ []))

variable {request : HTTPRequest} {line code body : Bytes} {headers : List HTTPHeader}
  {sizes : List Nat}

theorem hasNoBody_of_status {m : HTTPResponse} (h : IsStatusLine m.firstLine code)
    (hstate : m.state ≠ .firstLinePending)
    (hcode : code.head? = some 49 ∨ code = ascii "204" ∨ code = ascii "304") :
    m.hasNoBody = .ok true := by
  have hne := h.number.nonempty
  obtain ⟨c, rest, rfl⟩ := List.exists_cons_of_ne_nil hne
  have hdigit : c = 49 ∨ c :: rest = ascii "204" ∨ c :: rest = ascii "304" := by
    simpa using hcode
  simp [hasNoBody, statusCode_eq h hstate, byteAtIndex, hdigit]

theorem hasNoBody_of_request {m : HTTPResponse} (h : IsStatusLine m.firstLine code)
    (hstate : m.state ≠ .firstLinePending) {b : Bool} (hcode : code.head? ≠ some 49)
    (h204 : code ≠ ascii "204") (h304 : code ≠ ascii "304") (hhead : m.request.isHead = .ok b) :
    m.hasNoBody = .ok b := by
  have hne := h.number.nonempty
  obtain ⟨c, rest, rfl⟩ := List.exists_cons_of_ne_nil hne
  have hdigit : ¬ (c = 49 ∨ c :: rest = ascii "204" ∨ c :: rest = ascii "304") := by
    simp only [List.head?_cons, ne_eq, Option.some.injEq] at hcode
    simp [hcode, h204, h304]
  simp [hasNoBody, statusCode_eq h hstate, byteAtIndex, hdigit, hhead]

theorem takes_noBody (hnone : (opened request line headers).hasNoBody = .ok true) (rest : Bytes) :
    ∃ m, calculateExpectedBodySize (opened request line headers) = .ok m ∧
      HTTPMessage.SmallReads ([] ++ rest) m ∧
      HTTPMessage.Ends (m.readInBody ([] ++ rest)) ([] ++ rest) m 0 := by
  refine ⟨{ opened request line headers with expectedBodySize := (true, 0) }, ?_,
    HTTPMessage.takes_known [] rest rfl rfl rfl rfl⟩
  simp only [calculateExpectedBodySize, hnone, HTTPMessage.setExpectedBodySize, ok_bind, if_true]
  rfl

/-- **A framed body.** What the parser makes of the framing, and the body that
it takes. -/
theorem Framed.takes (h : (opened request line headers).Framed code sizes body)
    (hstatus : IsStatusLine line code) (hfinal : code.head? ≠ some 49)
    (hsizes : ∀ size ∈ sizes, size + 2 < 2 ^ 32) (rest : Bytes) :
    ∃ m, calculateExpectedBodySize (opened request line headers) = .ok m ∧
      HTTPMessage.SmallReads (body ++ rest) m ∧
      HTTPMessage.Ends (m.readInBody (body ++ rest)) (body ++ rest) m body.length := by
  have hstate : (opened request line headers).state ≠ .firstLinePending := by simp [opened]
  cases h with
  | noBody hno =>
      have hnone : (opened request line headers).hasNoBody = .ok true := by
        by_cases h204 : code = ascii "204"
        · exact hasNoBody_of_status hstatus hstate (.inr (.inl h204))
        · by_cases h304 : code = ascii "304"
          · exact hasNoBody_of_status hstatus hstate (.inr (.inr h304))
          · have hhead := (hno.resolve_left h204).resolve_left h304
            exact hasNoBody_of_request hstatus hstate hfinal h204 h304 hhead
      exact takes_noBody hnone rest
  | chunked hmay hchunked hbody =>
      have hsome := hasNoBody_of_request hstatus hstate hfinal hmay.not204 hmay.not304 hmay.notHead
      obtain ⟨⟨p, hread⟩, hsmall⟩ := hbody.read rest hsizes
      have hb : BodyParser.read (body ++ rest) (.chunked (.initial
          ((opened request line headers).hasHeader (ascii "Trailer"))))
          = .ok (some body.length, .chunked p) := by
        simp [BodyParser.read, hread, Except.map]
      refine ⟨{ opened request line headers with
        expectedBodySize := (false, npos)
        derived := ⟨request, some (.chunked (.initial
          ((opened request line headers).hasHeader (ascii "Trailer"))))⟩ }, ?_, fun _ b hb' => ?_, ?_⟩
      · simp only [calculateExpectedBodySize, hsome, hchunked, HTTPMessage.setExpectedBodySize, ok_bind,
          if_true, Bool.false_eq_true, if_false]
        rfl
      · cases hb'
        exact hsmall
      · rw [HTTPMessage.readInBody_of_unknown rfl rfl]
        refine (ends_iff (b := .chunked (.initial
          ((opened request line headers).hasHeader (ascii "Trailer")))) rfl rfl ?_).mpr ⟨_, hb⟩
        exact ChunkedBodyParser.quiet_initial _
  | @contentLength digits _ hmay hte hcl hnumber hvalue hlt =>
      have hsome := hasNoBody_of_request hstatus hstate hfinal hmay.not204 hmay.not304 hmay.notHead
      have hchunked : (opened request line headers).isChunked = .ok false := by
        simp [isChunked, hte]
      have hhas := HTTPMessage.hasHeader_of_getHeaderValue hcl
      have hatoi := myatoi_digits (by omega) hnumber (hvalue ▸ hlt)
      rw [hvalue] at hatoi
      have hsize : toSizeT (body.length : Int) = body.length := by
        rw [toSizeT]
        omega
      refine ⟨{ opened request line headers with expectedBodySize := (true, body.length) }, ?_,
        HTTPMessage.takes_known _ rest rfl rfl rfl rfl⟩
      simp only [calculateExpectedBodySize, hsome, hchunked, hte, hhas, hcl, hatoi, ok_bind,
        Bool.false_eq_true, if_false, Bool.not_false, Bool.and_self, if_true, hsize,
        HTTPMessage.setExpectedBodySize]
      rfl

theorem interim_takes (request : HTTPRequest) (headers : List HTTPHeader)
    (hstatus : IsStatusLine line code) (hinterim : code.head? = some 49)
    (rest : Bytes) :
    ∃ m, calculateExpectedBodySize (opened request line headers) = .ok m ∧
      HTTPMessage.SmallReads ([] ++ rest) m ∧
      HTTPMessage.Ends (m.readInBody ([] ++ rest)) ([] ++ rest) m 0 := by
  have hnone : (opened request line headers).hasNoBody = .ok true :=
    hasNoBody_of_status hstatus (by simp [opened]) (.inl hinterim)
  exact takes_noBody hnone rest

end HTTPResponse

/-! ## The parser in front of a response -/

namespace HTTPMessageSequence

section

variable {X S : Type} [HTTPMessageType X] [HTTPMessageParser X S] [HTTPParserLaws X S]
variable {c c' d : HTTPMessageSequence X S}

/-- The parser comes from `c` to `d` on its way. -/
structure Comes (c d : HTTPMessageSequence X S) : Prop where
  sound : d.Sound
  parseAll : c.parseAll = d.parseAll
  small : SmallRun d → SmallRun c

theorem Comes.refl (h : c.Sound) : Comes c c := ⟨h, rfl, id⟩

theorem Comes.trans (h : Comes c c') (h' : Comes c' d) : Comes c d :=
  ⟨h'.sound, h.parseAll.trans h'.parseAll, fun hs => h.small (h'.small hs)⟩

theorem Comes.of_goes (hs : c.Sound) (hgo : Goes c d)
    (hsmall : c.messageInProgress.state = .bodyPending → c.messageInProgress.SmallReads c.buffer) :
    Comes c d := by
  refine ⟨hgo.sound hs, parseAll_of_goes hs hgo, fun hd => SmallRun.of_goes hs hsmall ?_⟩
  intro d' hgo'
  rw [hgo'.unique hgo]
  exact hd

theorem comes_headers {lines : List Bytes} {headers : List HTTPHeader} {rest : Bytes}
    (hs : c.Sound) (hstate : c.messageInProgress.state = .headersPending)
    (hlines : List.Forall₂ IsHeaderLine lines headers)
    (hbuffer : c.buffer = lines.flatMap (· ++ crlf) ++ rest) :
    Comes c { c with
      buffer := rest
      messageInProgress := { c.messageInProgress with
        headers := c.messageInProgress.headers ++ headers } } := by
  induction hlines generalizing c with
  | nil =>
      replace hbuffer : c.buffer = rest := hbuffer
      simpa [← hbuffer] using Comes.refl hs
  | @cons line header lines headers hline _ ih =>
      have his : IsLine c.buffer line (lines.flatMap (· ++ crlf) ++ rest) := by
        rw [hbuffer, List.flatMap_cons, List.append_assoc]
        exact isLine_of_noCrlf _ hline.noCrlf
      have hgo := Goes.header hstate his hline.nonempty hline.parsed
      have hcomes := Comes.of_goes hs hgo (by simp [hstate])
      have hrest := ih hcomes.sound hstate rfl
      refine hcomes.trans ?_
      simpa using hrest

/-- A parser between two messages comes to the end of one that stands at the
beginning of its buffer. -/
theorem comes_message {m₁ : HTTPMessage X} {s : S} {line body rest : Bytes} {lines : List Bytes}
    {headers : List HTTPHeader} (hs : c.Sound) (hm : c.messageInProgress = HTTPMessage.initial)
    (hinit : HTTPMessageParser.initializeNewMessage HTTPMessage.initial c.derived = .ok (m₁, s))
    (hline : NoCrlf line) (hlines : List.Forall₂ IsHeaderLine lines headers)
    (hbuffer : c.buffer = line ++ crlf ++ (lines.flatMap (· ++ crlf) ++ (crlf ++ (body ++ rest))))
    (htakes : ∃ m, HTTPMessageType.calculateExpectedBodySize { m₁ with
        firstLine := line, headers := headers, state := .bodyPending } = .ok m ∧
      m.SmallReads (body ++ rest) ∧
      HTTPMessage.Ends (m.readInBody (body ++ rest)) (body ++ rest) m body.length) :
    ∃ m : HTTPMessage X, view m = (line, headers, body) ∧ m.state = .complete ∧
      HTTPBodyView.forget m.derived = HTTPBodyView.forget m₁.derived ∧ Comes c { c with
        buffer := rest
        completeMessages := c.completeMessages ++ [m]
        messageInProgress := HTTPMessage.initial
        derived := s } := by
  obtain ⟨m₀, hcalc, hsmall, hends⟩ := htakes
  obtain ⟨d', hread, hforget⟩ := hends.result
  have hm₁ := (HTTPParserLaws.initialize_ok hinit).1
  have hheaders₁ : m₁.headers = [] := by
    rw [hm₁]
    rfl
  have hbody₁ : m₁.body = [] := by
    rw [hm₁]
    rfl
  rw [← hm] at hinit
  -- the first line
  have hline' := isLine_of_noCrlf (lines.flatMap (· ++ crlf) ++ (crlf ++ (body ++ rest))) hline
  rw [← hbuffer] at hline'
  have hfirst := Comes.of_goes hs (.firstLine (by rw [hm]; rfl) hline' hinit)
    (by rw [hm]; exact fun h => by cases h)
  rw [hheaders₁] at hfirst
  have hheaders := comes_headers hfirst.sound rfl hlines rfl
  rw [List.nil_append] at hheaders
  -- the blank line
  have hnil : IsLine (crlf ++ (body ++ rest)) [] (body ++ rest) :=
    isLine_of_noCrlf (body ++ rest) List.isChain_nil
  have hblank := Comes.of_goes hheaders.sound (.blankLine rfl hnil hcalc) (fun h => by cases h)
  obtain ⟨hm₀, hforget₀, -, -⟩ := HTTPBodyLaws.calculate_ok hcalc
  have hstate₀ : m₀.state = .bodyPending := by rw [hm₀]
  have hbody₀ : m₀.body = [] := by rw [hm₀, hbody₁]
  -- the body, and the message is complete
  have hbody := Comes.of_goes hblank.sound (.body hstate₀ hends hread hforget) (fun _ => hsmall)
  have hcomplete := Comes.of_goes hbody.sound (.complete rfl) (fun h => by cases h)
  have hall := hfirst.trans (hheaders.trans (hblank.trans (hbody.trans hcomplete)))
  have hdrop : (body ++ rest).drop body.length = rest := List.drop_left
  dsimp only at hall
  rw [hdrop] at hall
  refine ⟨_, ?_, rfl, hforget.trans hforget₀, hall⟩
  have htake : m₀.body ++ (body ++ rest).take body.length = body := by
    rw [hbody₀, List.nil_append, List.take_left]
  rw [view, htake, hm₀]

end

end HTTPMessageSequence

namespace HTTPResponseParser

open HTTPMessageSequence HTTPResponse

variable {c : HTTPResponseParser} {request : HTTPRequest} {requests : List HTTPRequest}
  {line code body rest : Bytes} {headers : List HTTPHeader}

/-- The complete response that the parser makes of a head and a body. -/
structure IsResponse (request : HTTPRequest) (line : Bytes) (headers : List HTTPHeader) (body : Bytes)
    (m : HTTPResponse) : Prop where
  request : m.request = request
  firstLine : m.firstLine = line
  headers : m.headers = headers
  body : m.body = body
  state : m.state = .complete

/-- A parser that expects a response comes to the end of one that stands at
the beginning of its buffer. -/
theorem comes_response (hs : c.Sound) (hm : c.messageInProgress = HTTPMessage.initial)
    (hrequests : c.derived = request :: requests) (hline : NoCrlf line) {lines : List Bytes}
    (hlines : List.Forall₂ IsHeaderLine lines headers)
    (hbuffer : c.buffer = line ++ crlf ++ (lines.flatMap (· ++ crlf) ++ (crlf ++ (body ++ rest))))
    (htakes : ∃ m, calculateExpectedBodySize (opened request line headers) = .ok m ∧
      HTTPMessage.SmallReads (body ++ rest) m ∧
      HTTPMessage.Ends (m.readInBody (body ++ rest)) (body ++ rest) m body.length) :
    ∃ m, IsResponse request line headers body m ∧ Comes c { c with
      buffer := rest
      completeMessages := c.completeMessages ++ [m]
      messageInProgress := HTTPMessage.initial
      derived := requests } := by
  -- the message with the request that is expected
  have hinit : HTTPMessageParser.initializeNewMessage (HTTPMessage.initial : HTTPResponse) c.derived
      = .ok ({ (HTTPMessage.initial : HTTPResponse) with derived := ⟨request, none⟩ }, requests) := by
    rw [hrequests]
    rfl
  obtain ⟨m, hview, hstate, hforget, hcomes⟩ :=
    comes_message hs hm hinit hline hlines hbuffer htakes
  obtain ⟨hfirst, hrest⟩ := Prod.mk.inj hview
  obtain ⟨hheaders, hbody⟩ := Prod.mk.inj hrest
  have hrequest : m.derived.request = request := by
    have h := congrArg ResponsePart.request hforget
    exact h
  exact ⟨m, ⟨hrequest, hfirst, hheaders, hbody, hstate⟩, hcomes⟩

end HTTPResponseParser

end Mahimahi
