import Mahimahi.ReplayServer

/-!
# Which record is replayed

`match_score` returns 0 for a record that does not match, and the length of the
common prefix for one that does. That length is not 0 either, as a rule: the lines
agree up to the first `?`, so they begin with the same character. Only an empty line
that was recorded has no first character, and it matches when the line asked for
begins with `?` itself; such a record counts as one that does not match
(`scoreOf_pos_iff`).

Apart from that the maximum over the scores is what it should be: the first of the
records that have the longest prefix in common with the line asked for
(`replay_picks_first_best`).
-/

namespace Mahimahi

/-! ## Prefixes -/

/-- A prefix of the first line is common to both exactly if it is no longer than the
common prefix that the loop finds. -/
theorem isPrefix_iff_le_commonPrefix : ∀ (i : Nat) {p a b : Bytes}, p <+: a →
    (p <+: b ↔ i + p.length ≤ commonPrefix i a b)
  | i, [], a, b, _ => by
      have hle : ∀ (i : Nat) (a b : Bytes), i ≤ commonPrefix i a b := by
        intro i a
        induction a generalizing i with
        | nil => intro b; simp [commonPrefix]
        | cons c a ih =>
            intro b
            cases b with
            | nil => simp [commonPrefix]
            | cons d b =>
                rw [commonPrefix]
                split
                · exact (Nat.le_succ i).trans (ih (i + 1) b)
                · exact Nat.le_refl i
      simpa using hle i a b
  | i, c :: p, [], b, h => absurd h (by simp)
  | i, c :: p, d :: a, [], h => by simp [commonPrefix]
  | i, c :: p, d :: a, e :: b, h => by
      obtain ⟨rfl, hp⟩ := List.cons_prefix_cons.mp h
      have ih := isPrefix_iff_le_commonPrefix (i + 1) (b := b) hp
      rw [commonPrefix, List.cons_prefix_cons, List.length_cons]
      split
      · next hce =>
          rw [ih, Nat.add_right_comm, Nat.add_assoc]
          simp [hce]
      · next hce => simp [hce]

/-! ## The records that may be replayed -/

/-- The record is eligible, and its line is not empty. -/
def Answerable (env : CgiEnvironment) (requestLine : Bytes) (record : RequestResponse) : Prop :=
  Eligible env requestLine (record.scheme = .https) (.ofProtobuf record.request) ∧
    record.request.firstLine ≠ []

instance (env : CgiEnvironment) (requestLine : Bytes) (record : RequestResponse) :
    Decidable (Answerable env requestLine record) := inferInstanceAs (Decidable (_ ∧ _))

theorem stripQuery_cons {c : UInt8} (hc : c ≠ 63) (line : Bytes) :
    ∃ t, stripQuery (c :: line) = c :: t := by
  have hnot : ¬ [63] <+: c :: line := by simp [Ne.symm hc]
  cases hfind : find [63] line with
  | none =>
      have hnone : find (ascii "?") (c :: line) = none := find_cons_eq_none.mpr ⟨hnot, hfind⟩
      exact ⟨line, by rw [stripQuery, hnone]⟩
  | some i =>
      have hsome : find (ascii "?") (c :: line) = some (i + 1) :=
        find_cons_eq_some.mpr (.inr ⟨hnot, i, hfind, rfl⟩)
      exact ⟨line.take i, by rw [stripQuery, hsome]; rfl⟩

theorem stripQuery_query (line : Bytes) : stripQuery (63 :: line) = [] := by
  have hsome : find (ascii "?") (63 :: line) = some 0 := find_cons_eq_some.mpr (.inl ⟨by simp [ascii], rfl⟩)
  rw [stripQuery, hsome]
  rfl

/-- Lines that agree up to the first `?` begin with the same character. -/
theorem head_eq_of_stripQuery {c d : UInt8} {a b : Bytes}
    (h : stripQuery (c :: a) = stripQuery (d :: b)) : c = d := by
  by_cases hc : c = 63 <;> by_cases hd : d = 63
  · rw [hc, hd]
  · obtain ⟨t, ht⟩ := stripQuery_cons hd b
    rw [hc, stripQuery_query, ht] at h
    cases h
  · obtain ⟨t, ht⟩ := stripQuery_cons hc a
    rw [hd, stripQuery_query, ht] at h
    cases h
  · obtain ⟨s, hs⟩ := stripQuery_cons hc a
    obtain ⟨t, ht⟩ := stripQuery_cons hd b
    rw [hs, ht] at h
    exact (List.cons.inj h).1

/-- Unless the line asked for begins with `?`, the line of an eligible record is not empty. -/
theorem Eligible.answerable {env : CgiEnvironment} {c : UInt8} {line : Bytes}
    {record : RequestResponse} (hc : c ≠ 63)
    (h : Eligible env (c :: line) (record.scheme = .https) (.ofProtobuf record.request)) :
    Answerable env (c :: line) record := by
  refine ⟨h, fun hnil => ?_⟩
  obtain ⟨t, ht⟩ := stripQuery_cons hc line
  have hquery := h.query
  rw [ht] at hquery
  have hempty : (HTTPMessage.ofProtobuf record.request : HTTPRequest).firstLine = [] := hnil
  rw [hempty] at hquery
  cases hquery

section

variable {env : CgiEnvironment} {requestLine : Bytes} {record : RequestResponse}

theorem scoreOf_eq (h : Answerable env requestLine record) :
    scoreOf env requestLine record = commonPrefix 0 requestLine record.request.firstLine :=
  if_pos h.1

/-- A score of 0 is the score of the others. -/
theorem scoreOf_pos_iff (hne : 0 < requestLine.length) :
    0 < scoreOf env requestLine record ↔ Answerable env requestLine record := by
  constructor
  · intro hpos
    by_cases helig : Eligible env requestLine (record.scheme = .https) (.ofProtobuf record.request)
    · refine ⟨helig, fun hnil => ?_⟩
      have hzero : scoreOf env requestLine record = 0 := by
        have hempty : (HTTPMessage.ofProtobuf record.request : HTTPRequest).firstLine = [] := hnil
        rw [scoreOf, if_pos helig, hempty]
        cases requestLine <;> rfl
      omega
    · rw [scoreOf, if_neg helig] at hpos
      exact absurd hpos (Nat.lt_irrefl 0)
  · intro h
    obtain ⟨c, a, rfl⟩ := List.exists_cons_of_length_pos hne
    obtain ⟨d, b, hline⟩ := List.exists_cons_of_ne_nil h.2
    have hquery : stripQuery (c :: a) = stripQuery record.request.firstLine := h.1.query
    rw [hline] at hquery
    obtain rfl := head_eq_of_stripQuery hquery
    have hcommon := (isPrefix_iff_le_commonPrefix 0 (p := [c]) (a := c :: a) (b := c :: b)
      (by simp)).mp (by simp)
    rw [scoreOf_eq h, hline]
    exact Nat.lt_of_lt_of_le (by simp) hcommon

end

/-! ## The choice -/

/-- The first of the records that have the longest prefix in common with the line. -/
structure FirstBest (env : CgiEnvironment) (requestLine : Bytes) (records : List RequestResponse)
    (best : RequestResponse) : Prop where
  answerable : Answerable env requestLine best
  longest : ∀ r ∈ records, Answerable env requestLine r → ∀ p, p <+: requestLine →
    p <+: r.request.firstLine → p <+: best.request.firstLine
  first : ∃ before after, records = before ++ best :: after ∧
    ∀ r ∈ before, Answerable env requestLine r →
      ∃ p, p <+: requestLine ∧ p <+: best.request.firstLine ∧ ¬ p <+: r.request.firstLine

/-- No record has a score: `replayserver` answers 404. -/
def Misses (env : CgiEnvironment) (requestLine : Bytes) (files : List RecordFile) : Prop :=
  ∃ best, bestMatch env requestLine files 0 .unset = .ok (0, best)

section

variable {env : CgiEnvironment} {requestLine : Bytes} {files files' : List RecordFile}
  {records records' : List RequestResponse} {b b' : Nat} {best best' : RequestResponse}

theorem Leads.mem {α : Type} {score : α → Nat} {seen : List α} {b : Nat} {best : α}
    (h : Leads score seen b best) (hpos : 0 < b) : best ∈ seen ∧ score best = b := by
  have hfind := h.first hpos
  have hmem := List.mem_of_find?_eq_some hfind
  have hle : b ≤ score best := by simpa using List.find?_some hfind
  exact ⟨hmem, Nat.le_antisymm (h.le best hmem) hle⟩

theorem Leads.eq_zero_iff (hne : 0 < requestLine.length)
    (h : Leads (scoreOf env requestLine) records b best) :
    b = 0 ↔ ∀ r ∈ records, ¬ Answerable env requestLine r := by
  constructor
  · rintro rfl r hr hanswer
    have hpos := (scoreOf_pos_iff hne).mpr hanswer
    exact absurd (h.le r hr) (Nat.not_le.mpr hpos)
  · intro hnone
    by_contra hb
    obtain ⟨hmem, hscore⟩ := h.mem (Nat.pos_of_ne_zero hb)
    exact hnone best hmem ((scoreOf_pos_iff hne).mp (by omega))

/-- The leader is the first of the best. -/
theorem Leads.firstBest (hne : 0 < requestLine.length)
    (h : Leads (scoreOf env requestLine) records b best) (hpos : 0 < b) :
    FirstBest env requestLine records best := by
  obtain ⟨hmem, hscore⟩ := h.mem hpos
  have hanswer : Answerable env requestLine best := (scoreOf_pos_iff hne).mp (by omega)
  rw [scoreOf_eq hanswer] at hscore
  refine ⟨hanswer, fun r hr hr' p hp hpr => ?_, ?_⟩
  · have hle := h.le r hr
    rw [scoreOf_eq hr'] at hle
    rw [isPrefix_iff_le_commonPrefix 0 hp] at hpr ⊢
    omega
  · obtain ⟨-, before, after, hsplit, hbefore⟩ := List.find?_eq_some_iff_append.mp (h.first hpos)
    refine ⟨before, after, hsplit, fun r hr hr' => ?_⟩
    have hlt : scoreOf env requestLine r < b := by simpa using hbefore r hr
    rw [scoreOf_eq hr'] at hlt
    have hlen := commonPrefix_le 0 requestLine best.request.firstLine
    have htake := List.take_prefix b requestLine
    have hlength : (requestLine.take b).length = b := by
      rw [List.length_take]
      omega
    refine ⟨requestLine.take b, htake, ?_, ?_⟩
    · rw [isPrefix_iff_le_commonPrefix 0 htake]
      omega
    · rw [isPrefix_iff_le_commonPrefix 0 htake]
      omega

/-- Only the records that may be replayed have a say. -/
theorem Leads.unique (hne : 0 < requestLine.length)
    (h : Leads (scoreOf env requestLine) records b best)
    (h' : Leads (scoreOf env requestLine) records' b' best')
    (hsame : records'.filter (fun r => decide (Answerable env requestLine r))
      = records.filter fun r => decide (Answerable env requestLine r)) :
    b' = b ∧ (0 < b → best' = best) := by
  have hle {rs rs' : List RequestResponse} {n n' : Nat} {x x' : RequestResponse}
      (hl : Leads (scoreOf env requestLine) rs n x) (hl' : Leads (scoreOf env requestLine) rs' n' x')
      (hf : rs'.filter (fun r => decide (Answerable env requestLine r))
        = rs.filter fun r => decide (Answerable env requestLine r)) : n ≤ n' := by
    rcases Nat.eq_zero_or_pos n with rfl | hpos
    · exact Nat.zero_le _
    obtain ⟨hmem, hscore⟩ := hl.mem hpos
    have hanswer : Answerable env requestLine x := (scoreOf_pos_iff hne).mp (by omega)
    have hmem' : x ∈ rs'.filter fun r => decide (Answerable env requestLine r) := by
      rw [hf, List.mem_filter]
      exact ⟨hmem, decide_eq_true hanswer⟩
    have := hl'.le x (List.mem_filter.mp hmem').1
    omega
  obtain rfl : b' = b := Nat.le_antisymm (hle h' h hsame.symm) (hle h h' hsame)
  refine ⟨rfl, fun hpos => ?_⟩
  have hfilter (rs : List RequestResponse) :
      (rs.filter fun r => decide (Answerable env requestLine r)).find?
        (fun r => decide (b' ≤ scoreOf env requestLine r))
      = rs.find? fun r => decide (b' ≤ scoreOf env requestLine r) := by
    rw [List.find?_filter]
    congr 1
    funext r
    by_cases hb : b' ≤ scoreOf env requestLine r
    · have hpos : 0 < scoreOf env requestLine r := by omega
      simp [hb, (scoreOf_pos_iff hne).mp hpos]
    · simp [hb]
  have hfind := h.first hpos
  have hfind' := h'.first hpos
  rw [← hfilter] at hfind hfind'
  rw [hsame, hfind] at hfind'
  exact (Option.some.inj hfind').symm

/-- What the loop over all files comes to. -/
theorem bestMatch_all (env : CgiEnvironment) (hshort : requestLine.length < 2 ^ 32)
    (hfiles : List.Forall₂ Holds files records) :
    ∃ b best, bestMatch env requestLine files 0 .unset = .ok (b, best) ∧
      Leads (scoreOf env requestLine) records b best := by
  have hstart : Leads (scoreOf env requestLine) [] 0 .unset :=
    ⟨fun record hrecord => (by cases hrecord), fun h => absurd h (Nat.lt_irrefl 0)⟩
  have hend := bestMatch_leads hshort hfiles hstart
  rwa [List.nil_append] at hend

theorem replay_of_bestMatch (hline : env.requestLine = .ok requestLine)
    (hbest : bestMatch env requestLine files 0 .unset = .ok (b, best)) :
    replay env files = if 0 < b then (HTTPMessage.ofProtobuf best.response : HTTPResponse).str
      else .ok (notFound requestLine) := by
  rw [replay, hline, ok_bind, hbest]
  rfl

/-- **The first of the best is replayed.** There is a 404 exactly if no record may be
replayed, and records that may not be make no difference. -/
theorem replay_picks_first_best (hline : env.requestLine = .ok requestLine)
    (hshort : requestLine.length < 2 ^ 32) (hfiles : List.Forall₂ Holds files records) :
    (Misses env requestLine files ↔ ∀ r ∈ records, ¬ Answerable env requestLine r) ∧
      (Misses env requestLine files → replay env files = .ok (notFound requestLine)) ∧
      (¬ Misses env requestLine files → ∃ best text, FirstBest env requestLine records best ∧
        (HTTPMessage.ofProtobuf best.response : HTTPResponse).str = .ok text ∧
        replay env files = .ok text) ∧
      ∀ files' records', List.Forall₂ Holds files' records' →
        records'.filter (fun r => decide (Answerable env requestLine r))
          = records.filter (fun r => decide (Answerable env requestLine r)) →
        replay env files' = replay env files := by
  have hne := requestLine_pos hline
  obtain ⟨b, best, hbest, hleads⟩ := bestMatch_all env hshort hfiles
  have hreplay := replay_of_bestMatch hline hbest
  have hmisses : Misses env requestLine files ↔ b = 0 := by
    constructor
    · rintro ⟨best', hbest'⟩
      rw [hbest] at hbest'
      exact (Prod.mk.inj (Except.ok.inj hbest')).1
    · rintro rfl
      exact ⟨best, hbest⟩
  refine ⟨hmisses.trans (hleads.eq_zero_iff hne), fun hmiss => ?_, fun hhit => ?_, ?_⟩
  · rw [hreplay, if_neg (by rw [hmisses.mp hmiss]; exact Nat.lt_irrefl 0)]
  · have hpos : 0 < b := Nat.pos_of_ne_zero (mt hmisses.mpr hhit)
    rw [if_pos hpos] at hreplay
    have htext : ∃ text, (HTTPMessage.ofProtobuf best.response : HTTPResponse).str = .ok text :=
      ⟨_, rfl⟩
    obtain ⟨text, htext⟩ := htext
    exact ⟨best, text, hleads.firstBest hne hpos, htext, by rw [hreplay, htext]⟩
  · intro files' records' hfiles' hsame
    obtain ⟨b', best', hbest', hleads'⟩ := bestMatch_all env hshort hfiles'
    obtain ⟨rfl, hbests⟩ := hleads.unique hne hleads' hsame
    rw [hreplay, replay_of_bestMatch hline hbest']
    by_cases hpos : 0 < b'
    · rw [if_pos hpos, if_pos hpos, hbests hpos]
    · rw [if_neg hpos, if_neg hpos]

end

/-! ## An empty line, and a line that is too long -/

/-- A request for `uri`, without a host and a user agent. -/
def CgiEnvironment.plain (method uri : Bytes) : CgiEnvironment where
  requestMethod := some method
  requestUri := some uri
  serverProtocol := some (ascii "HTTP/1.1")
  httpHost := none
  httpUserAgent := none
  https := false
  order := [.requestMethod, .requestUri, .serverProtocol]
  everyOperand := by rintro ⟨⟩ <;> decide

/-- A record of the line, with nothing else set. -/
def RequestResponse.ofLine (line : Bytes) : RequestResponse :=
  { RequestResponse.unset with request := ⟨line, [], []⟩ }

def RecordFile.ofRecord (record : RequestResponse) : RecordFile := ⟨ascii "save.aBcDeF", some record⟩

theorem holds_ofRecord (record : RequestResponse) : Holds (.ofRecord record) record :=
  ⟨by rfl, rfl⟩

/-- With a line of `2 ^ 32` characters the loop over the common prefix of a record of
that line does not end. -/
theorem replay_long_line {uri : Bytes} (hlong : 2 ^ 32 ≤ uri.length) :
    ∃ requestLine, (CgiEnvironment.plain (ascii "GET") uri).requestLine = .ok requestLine ∧
      Answerable (.plain (ascii "GET") uri) requestLine (.ofLine requestLine) ∧
      replay (.plain (ascii "GET") uri) [.ofRecord (.ofLine requestLine)] = .error .diverges := by
  obtain ⟨requestLine, huri⟩ : ∃ requestLine,
      requestLine = ascii "GET" ++ ascii " " ++ uri ++ ascii " " ++ ascii "HTTP/1.1" := ⟨_, rfl⟩
  have hline : (CgiEnvironment.plain (ascii "GET") uri).requestLine = .ok requestLine := by
    rw [huri]
    exact requestLine_eq rfl rfl rfl
  have hne := requestLine_pos hline
  have hlen : uri.length ≤ requestLine.length := by
    rw [huri]
    simp only [List.length_append]
    omega
  have hanswer : Answerable (.plain (ascii "GET") uri) requestLine (.ofLine requestLine) :=
    ⟨⟨by simp [RequestResponse.ofLine, RequestResponse.unset, CgiEnvironment.plain], rfl, rfl, rfl⟩,
      List.ne_nil_of_length_pos hne⟩
  have hscore := (isPrefix_iff_le_commonPrefix 0 (List.prefix_refl requestLine)).mp
    (List.prefix_refl requestLine)
  have hlarge : ¬ scoreOf (.plain (ascii "GET") uri) requestLine (.ofLine requestLine) < 2 ^ 32 := by
    rw [scoreOf_eq hanswer]
    have hsame : (RequestResponse.ofLine requestLine).request.firstLine = requestLine := rfl
    rw [hsame]
    omega
  refine ⟨requestLine, hline, hanswer, ?_⟩
  have hsave : (find (ascii "save") (RecordFile.ofRecord (.ofLine requestLine)).name).isSome = true :=
    (holds_ofRecord _).1
  have hparsed : (RecordFile.ofRecord (.ofLine requestLine)).parsed = some (.ofLine requestLine) := rfl
  rw [replay, hline, ok_bind, bestMatch, if_pos hsave, hparsed]
  dsimp only
  rw [matchScore_eq, if_neg hlarge]
  rfl

/-- A record of an empty line is eligible for a request whose method is `?`, and there
is a 404 all the same; and with a line of `2 ^ 32` characters there may be no answer. -/
theorem eligible_record_missed :
    (∃ requestLine, (CgiEnvironment.plain (ascii "?") (ascii "/")).requestLine = .ok requestLine ∧
      Eligible (.plain (ascii "?") (ascii "/")) requestLine
        ((RequestResponse.ofLine []).scheme = .https)
        (.ofProtobuf (RequestResponse.ofLine []).request) ∧
      replay (.plain (ascii "?") (ascii "/")) [.ofRecord (.ofLine [])]
        = .ok (notFound requestLine)) ∧
    ∃ uri requestLine, (CgiEnvironment.plain (ascii "GET") uri).requestLine = .ok requestLine ∧
      Answerable (.plain (ascii "GET") uri) requestLine (.ofLine requestLine) ∧
      replay (.plain (ascii "GET") uri) [.ofRecord (.ofLine requestLine)] = .error .diverges := by
  refine ⟨⟨ascii "? / HTTP/1.1", rfl, ⟨?_, rfl, rfl, by decide⟩, by decide +kernel⟩, ?_⟩
  · simp [RequestResponse.ofLine, RequestResponse.unset, CgiEnvironment.plain]
  · have hlong : 2 ^ 32 ≤ (List.replicate (2 ^ 32) (97 : UInt8)).length := by
      rw [List.length_replicate]
    obtain ⟨requestLine, hline⟩ := replay_long_line hlong
    exact ⟨_, requestLine, hline⟩

/-- A record of the line, with a response that has the body. -/
def RequestResponse.answering (line body : String) : RequestResponse :=
  { RequestResponse.ofLine (ascii line) with
    response := ⟨ascii "HTTP/1.1 200 OK", [], ascii body⟩ }

/-- Of three records one may not be replayed, and one has less in common with the line than
the third: this is the one printed, also without the first; and with the first alone there
is a 404. -/
theorem replay_picks_first_best_getQuery :
    let line := ascii "GET /?a HTTP/1.1"
    let other := RecordFile.ofRecord (.answering "GET /b HTTP/1.1" "1")
    let shorter := RecordFile.ofRecord (.answering "GET /?b HTTP/1.1" "2")
    let longer := RecordFile.ofRecord (.answering "GET /?ab HTTP/1.1" "3")
    (∃ best, FirstBest getQuery line [.answering "GET /b HTTP/1.1" "1",
        .answering "GET /?b HTTP/1.1" "2", .answering "GET /?ab HTTP/1.1" "3"] best ∧
      (HTTPMessage.ofProtobuf best.response : HTTPResponse).str
        = .ok (ascii "HTTP/1.1 200 OK\r\n\r\n3") ∧
      replay getQuery [other, shorter, longer] = .ok (ascii "HTTP/1.1 200 OK\r\n\r\n3")) ∧
    replay getQuery [shorter, longer] = replay getQuery [other, shorter, longer] ∧
    replay getQuery [other] = .ok (notFound line) := by
  intro line other shorter longer
  have hline : getQuery.requestLine = .ok line := rfl
  have hfiles : List.Forall₂ Holds [other, shorter, longer] [.answering "GET /b HTTP/1.1" "1",
      .answering "GET /?b HTTP/1.1" "2", .answering "GET /?ab HTTP/1.1" "3"] :=
    .cons (holds_ofRecord _) (.cons (holds_ofRecord _) (.cons (holds_ofRecord _) .nil))
  obtain ⟨hmisses, -, hbest, hsame⟩ := replay_picks_first_best hline (by decide) hfiles
  obtain ⟨best, text, hfirst, htext, hreplay⟩ := hbest (by rw [hmisses]; decide +kernel)
  have hprinted : replay getQuery [other, shorter, longer]
      = .ok (ascii "HTTP/1.1 200 OK\r\n\r\n3") := by decide +kernel
  obtain rfl := Except.ok.inj (hreplay.symm.trans hprinted)
  refine ⟨⟨best, hfirst, htext, hreplay⟩, ?_, ?_⟩
  · exact hsame _ _ (.cons (holds_ofRecord _) (.cons (holds_ofRecord _) .nil)) (by decide +kernel)
  · obtain ⟨hmisses, hmiss, -⟩ := replay_picks_first_best hline (by decide)
      (.cons (holds_ofRecord (.answering "GET /b HTTP/1.1" "1")) .nil)
    exact hmiss (hmisses.mpr (by decide +kernel))

end Mahimahi
