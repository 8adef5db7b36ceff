import Mahimahi.HeaderWhitespace

/-!
# White space and the framing of a response

Of the header values that the framing of a response depends on, two are looked at
up to their ends: the last transfer coding and the length. White space behind these
takes the framing away, and so does a tab in front of a single transfer coding. All
other white space around values is harmless (`same_framing_iff`).

`PaddedLine` is a header line with the places at which white space may be added. What
is added there does to the value is said for each of the three headers
(`lastCodingChunked_padded`, `denotes_padded`, `not_multipart_padded`), and
`Chooses` lists the four ways in which the framing comes from them.
-/

namespace Mahimahi

/-! ## A header line with white space added -/

/-- A header line: the value stands between the white space `front` and `back`, and more
may be added directly before the value and behind it. -/
structure PaddedLine where
  key : Bytes
  front : Bytes
  value : Bytes
  back : Bytes
  addedFront : Bytes
  addedBack : Bytes
  key_colon : 58 ∉ key
  front_lws : IsLws front
  back_lws : IsLws back
  addedFront_lws : IsLws addedFront
  addedBack_lws : IsLws addedBack
  /-- The line with the white space added is a `std::string`. -/
  length_lt : (front ++ addedFront ++ value ++ (addedBack ++ back)).length < 2 ^ 64

namespace PaddedLine

variable (p : PaddedLine)

/-- What stands behind the colon. -/
def text : Bytes := p.front ++ p.value ++ p.back

/-- What stands there with the white space added. -/
def paddedText : Bytes := p.front ++ p.addedFront ++ p.value ++ (p.addedBack ++ p.back)

def line : Bytes := p.key ++ 58 :: p.text

def paddedLine : Bytes := p.key ++ 58 :: p.paddedText

theorem text_length_lt : p.text.length < 2 ^ 64 := by
  have := p.length_lt
  simp only [text, List.length_append] at this ⊢
  omega

/-- The two lines as they are parsed. -/
def header : HTTPHeader := ⟨p.key, fieldValue p.text⟩

def paddedHeader : HTTPHeader := ⟨p.key, fieldValue p.paddedText⟩

theorem header_value : p.header.value = fieldValue p.text := rfl

theorem paddedHeader_value : p.paddedHeader.value = fieldValue p.paddedText := rfl

theorem paddedHeader_key : p.paddedHeader.key = p.header.key := rfl

theorem ofLine_line : HTTPHeader.ofLine p.line = .ok p.header :=
  HTTPHeader.ofLine_eq _ p.key_colon

theorem ofLine_paddedLine : HTTPHeader.ofLine p.paddedLine = .ok p.paddedHeader :=
  HTTPHeader.ofLine_eq _ p.key_colon

variable {p} {word : Bytes}

theorem is_text (h : IsWord word) : Is word p.text ↔ 9 ∉ p.front ∧ Is word p.value ∧ p.back = [] :=
  is_around h p.front_lws p.back_lws

theorem is_padded (h : IsWord word) :
    Is word p.paddedText ↔ Is word p.text ∧ p.addedBack = [] ∧ 9 ∉ p.addedFront := by
  rw [is_text h, paddedText, is_around h (p.front_lws.append p.addedFront_lws)
    (p.addedBack_lws.append p.back_lws), List.mem_append, List.append_eq_nil_iff]
  tauto

theorem denotes_padded {z : Int} :
    Denotes p.paddedText z ↔ Denotes p.text z ∧ p.addedBack = [] := by
  rw [paddedText, denotes_around (p.front_lws.append p.addedFront_lws)
    (p.addedBack_lws.append p.back_lws), text, denotes_around p.front_lws p.back_lws,
    List.append_eq_nil_iff]
  tauto

theorem mem_text {c : UInt8} (h32 : c ≠ 32) (h9 : c ≠ 9) : c ∈ p.text ↔ c ∈ p.value := by
  have hfront := p.front_lws.not_mem h32 h9
  have hback := p.back_lws.not_mem h32 h9
  simp [text, hfront, hback]

theorem mem_paddedText {c : UInt8} (h32 : c ≠ 32) (h9 : c ≠ 9) :
    c ∈ p.paddedText ↔ c ∈ p.value := by
  have hfront := (p.front_lws.append p.addedFront_lws).not_mem h32 h9
  have hback := (p.addedBack_lws.append p.back_lws).not_mem h32 h9
  rw [paddedText, List.mem_append, List.mem_append]
  tauto

end PaddedLine

/-! ## The last transfer coding -/

theorem isWord_chunked : IsWord (ascii "chunked") :=
  ⟨by decide, ⟨99, _, rfl, by decide, by decide⟩, by
    intro c hc
    obtain rfl : 100 = c := by simpa [ascii] using hc
    decide⟩

theorem lastCodingChunked_iff {v : Bytes} {codings : List Bytes} {last : Bytes}
    (hlen : v.length < 2 ^ 64) (hcodings : v.splitOn 44 = codings ++ [last]) :
    LastCodingChunked v ↔ Is (ascii "chunked") last := by
  have hsplit : split v (ascii ",") = .ok (codings ++ [last]) := by
    rw [← hcodings]
    exact split_byte hlen
  rw [← equivalentStrings_word isWord_chunked]
  constructor
  · rintro ⟨codings', last', hsplit', hlast, hequiv⟩
    rw [hsplit] at hsplit'
    cases hsplit'
    obtain rfl : last = last' := by simpa using hlast
    exact hequiv
  · intro hequiv
    exact ⟨_, last, hsplit, by simp, hequiv⟩

theorem lastCodingChunked_single {v : Bytes} (hlen : v.length < 2 ^ 64) (h : 44 ∉ v) :
    LastCodingChunked v ↔ Is (ascii "chunked") v :=
  lastCodingChunked_iff hlen (show v.splitOn 44 = [] ++ [v] from List.splitOn_eq_singleton h)

theorem lastCodingChunked_append {x y : Bytes} (hlen : (x ++ 44 :: y).length < 2 ^ 64) (h : 44 ∉ y) :
    LastCodingChunked (x ++ 44 :: y) ↔ Is (ascii "chunked") y :=
  lastCodingChunked_iff hlen
    (by rw [List.splitOn_append_cons_self, List.splitOn_eq_singleton h])

theorem exists_last_of_mem {c : UInt8} {s : Bytes} (h : c ∈ s) :
    ∃ x y, s = x ++ c :: y ∧ c ∉ y := by
  obtain ⟨y, x, hs, hy⟩ := List.eq_append_cons_of_mem (List.mem_reverse.mpr h)
  refine ⟨x.reverse, y.reverse, ?_, fun hc => hy (List.mem_reverse.mp hc)⟩
  have := congrArg List.reverse hs
  simpa using this

namespace PaddedLine

variable {p : PaddedLine}

/-- White space behind the last coding hides it, and so does a tab in front of the only
one. -/
theorem lastCodingChunked_padded :
    LastCodingChunked (fieldValue p.paddedText) ↔
      LastCodingChunked (fieldValue p.text) ∧ p.addedBack = [] ∧
        (44 ∈ p.value ∨ 9 ∉ p.addedFront) := by
  have hlen : (fieldValue p.text).length < 2 ^ 64 :=
    (fieldValue_length_le _).trans_lt p.text_length_lt
  have hlen' : (fieldValue p.paddedText).length < 2 ^ 64 :=
    (fieldValue_length_le _).trans_lt p.length_lt
  have hback := p.back_lws
  have hbacks := p.addedBack_lws.append p.back_lws
  by_cases hcomma : 44 ∈ p.value
  · obtain ⟨x, y, hvalue, hy⟩ := exists_last_of_mem hcomma
    have hlast {t : Bytes} (ht : IsLws t) : 44 ∉ y ++ t := by
      simp [hy, ht.not_mem (c := 44) (by decide) (by decide)]
    have htext : p.text = (p.front ++ x) ++ 44 :: (y ++ p.back) := by simp [text, hvalue]
    have hpadded : p.paddedText
        = (p.front ++ p.addedFront ++ x) ++ 44 :: (y ++ (p.addedBack ++ p.back)) := by
      simp [paddedText, hvalue]
    rw [htext, fieldValue_append_cons (by decide)] at hlen ⊢
    rw [hpadded, fieldValue_append_cons (by decide)] at hlen' ⊢
    rw [lastCodingChunked_append hlen (hlast hback), lastCodingChunked_append hlen' (hlast hbacks)]
    have hnil : IsLws [] := fun c hc => absurd hc List.not_mem_nil
    have hshort := is_around (u := y) isWord_chunked hnil hback
    have hlong := is_around (u := y) isWord_chunked hnil hbacks
    rw [List.nil_append] at hshort hlong
    rw [hshort, hlong, List.append_eq_nil_iff]
    constructor
    · rintro ⟨hnone, hword, hadded, hempty⟩
      exact ⟨⟨hnone, hword, hempty⟩, hadded, .inl hcomma⟩
    · rintro ⟨⟨hnone, hword, hempty⟩, hadded, -⟩
      exact ⟨hnone, hword, hadded, hempty⟩
  · have htext : 44 ∉ p.text := fun h => hcomma ((mem_text (by decide) (by decide)).mp h)
    have hpadded : 44 ∉ p.paddedText := fun h => hcomma ((mem_paddedText (by decide) (by decide)).mp h)
    rw [lastCodingChunked_single hlen (not_mem_fieldValue htext),
      lastCodingChunked_single hlen' (not_mem_fieldValue hpadded), is_fieldValue isWord_chunked,
      is_fieldValue isWord_chunked, is_padded isWord_chunked]
    tauto

end PaddedLine

/-! ## The media type -/

theorem isWord_multipart : IsWord (ascii "multipart/byteranges") :=
  ⟨by decide, ⟨109, _, rfl, by decide, by decide⟩, by
    intro c hc
    obtain rfl : 115 = c := by simpa [ascii] using hc
    decide⟩

theorem mimeType_eq_ok {v type : Bytes} {parameters : List Bytes} (hlen : v.length < 2 ^ 64)
    (htokens : v.splitOn 59 = type :: parameters) (hne : type ≠ []) : mimeType v = .ok type := by
  have hsplit : split v (ascii ";") = .ok (type :: parameters) := by
    rw [← htokens]
    exact split_byte hlen
  have hempty : type.isEmpty = false := by simpa using hne
  rw [mimeType, hsplit, ok_bind]
  simp [hempty]

theorem mimeType_ok {v type : Bytes} (hlen : v.length < 2 ^ 64) (h : mimeType v = .ok type) :
    type ≠ [] ∧ ∃ parameters, v.splitOn 59 = type :: parameters := by
  have hsplit : split v (ascii ";") = .ok (v.splitOn 59) := split_byte hlen
  rw [mimeType, hsplit, ok_bind] at h
  cases htokens : v.splitOn 59 with
  | nil => exact absurd htokens (List.splitOn_ne_nil 59 v)
  | cons t parameters =>
      rw [htokens] at h
      cases hempty : t.isEmpty with
      | true => simp [hempty] at h
      | false =>
          obtain rfl : t = type := by simpa [hempty] using h
          exact ⟨by simpa using hempty, parameters, rfl⟩

/-- There is a media type, and it is not the one that delimits itself. -/
def OtherType (v : Bytes) : Prop :=
  ∃ type, mimeType v = .ok type ∧ ¬ Is (ascii "multipart/byteranges") type

theorem otherType_iff {v type : Bytes} {parameters : List Bytes} (hlen : v.length < 2 ^ 64)
    (htokens : v.splitOn 59 = type :: parameters) :
    OtherType v ↔ type ≠ [] ∧ ¬ Is (ascii "multipart/byteranges") type := by
  constructor
  · rintro ⟨type', htype, hother⟩
    obtain ⟨hne, parameters', htokens'⟩ := mimeType_ok hlen htype
    obtain ⟨rfl, -⟩ := List.cons.inj (htokens.symm.trans htokens')
    exact ⟨hne, hother⟩
  · rintro ⟨hne, hother⟩
    exact ⟨type, mimeType_eq_ok hlen htokens hne, hother⟩

/-- White space does not make another type of a type. -/
theorem PaddedLine.otherType_padded {p : PaddedLine} (h : OtherType (fieldValue p.text)) :
    OtherType (fieldValue p.paddedText) := by
  have hlen : (fieldValue p.text).length < 2 ^ 64 :=
    (fieldValue_length_le _).trans_lt p.text_length_lt
  have hlen' : (fieldValue p.paddedText).length < 2 ^ 64 :=
    (fieldValue_length_le _).trans_lt p.length_lt
  by_cases hsemi : 59 ∈ p.value
  · obtain ⟨x, y, hvalue, hx⟩ := List.eq_append_cons_of_mem hsemi
    have htext : p.text = (p.front ++ x) ++ 59 :: (y ++ p.back) := by simp [text, hvalue]
    have hpadded : p.paddedText
        = (p.front ++ p.addedFront ++ x) ++ 59 :: (y ++ (p.addedBack ++ p.back)) := by
      simp [paddedText, hvalue]
    have hno {w : Bytes} (hw : IsLws w) : 59 ∉ (w ++ x).dropWhile (· == 32) := by
      intro hmem
      have := (List.dropWhile_suffix _).subset hmem
      simp [hx, hw.not_mem (c := 59) (by decide) (by decide)] at this
    have hfronts := p.front_lws.append p.addedFront_lws
    rw [htext, fieldValue_append_cons (by decide)] at hlen h
    rw [hpadded, fieldValue_append_cons (by decide)] at hlen' ⊢
    rw [otherType_iff hlen (List.splitOn_append_cons_self_of_not_mem (hno p.front_lws) _),
      is_dropWhile, is_append_front isWord_multipart _ p.front_lws] at h
    rw [otherType_iff hlen' (List.splitOn_append_cons_self_of_not_mem (hno hfronts) _),
      is_dropWhile, is_append_front isWord_multipart _ hfronts]
    obtain ⟨hne, hother⟩ := h
    constructor
    · intro hnil
      refine hne (List.dropWhile_eq_nil_iff.mpr fun c hc => List.dropWhile_eq_nil_iff.mp hnil c ?_)
      simp only [List.mem_append] at hc ⊢
      tauto
    · simp only [List.mem_append]
      tauto
  · have htext : 59 ∉ p.text := fun h => hsemi ((mem_text (by decide) (by decide)).mp h)
    have hpadded : 59 ∉ p.paddedText := fun h => hsemi ((mem_paddedText (by decide) (by decide)).mp h)
    rw [otherType_iff hlen (List.splitOn_eq_singleton (not_mem_fieldValue htext)),
      is_fieldValue isWord_multipart] at h
    rw [otherType_iff hlen' (List.splitOn_eq_singleton (not_mem_fieldValue hpadded)),
      is_fieldValue isWord_multipart, is_padded isWord_multipart]
    obtain ⟨hne, hother⟩ := h
    refine ⟨fun hnil => hne ?_, fun his => hother his.1⟩
    have := fieldValue_eq_nil hnil
    simp only [paddedText, List.append_eq_nil_iff] at this
    have hnil : p.text = [] := by simp [text, this]
    rw [hnil]
    rfl

/-! ## What the framing is chosen from -/

namespace HTTPResponse

/-- The rules that choose a framing without throwing. -/
inductive Chooses (m : HTTPResponse) : HTTPResponse → Prop where
  | noBody : m.hasNoBody = .ok true → Chooses m { m with expectedBodySize := (true, 0) }
  | chunked : m.hasNoBody = .ok false → m.isChunked = .ok true → Chooses m { m with
      expectedBodySize := (false, npos)
      derived := { m.derived with
        bodyParser := some (.chunked (.initial (m.hasHeader (ascii "Trailer")))) } }
  | length {v z} : m.hasNoBody = .ok false → m.hasHeader (ascii "Transfer-Encoding") = false →
      m.getHeaderValue (ascii "Content-Length") = .ok v → myatoi v 10 = .ok z →
      Chooses m { m with expectedBodySize := (true, toSizeT z) }
  | untilEof : m.hasNoBody = .ok false → m.isChunked = .ok false →
      ¬ (m.hasHeader (ascii "Transfer-Encoding") = false ∧
        m.hasHeader (ascii "Content-Length") = true) →
      m.isMultipart = .ok false → Chooses m { m with
        expectedBodySize := (false, npos)
        derived := { m.derived with bodyParser := some .rule5 } }

theorem chooses_of_eq_ok {m r : HTTPResponse} (h : m.calculateExpectedBodySize = .ok r) :
    m.state = .bodyPending ∧ m.Chooses r := by
  simp only [calculateExpectedBodySize, bind_eq_ok, assertThat_eq_ok, beq_iff_eq] at h
  obtain ⟨_, hstate, noBody, hno, h⟩ := h
  refine ⟨hstate, ?_⟩
  cases noBody with
  | true =>
      rw [if_pos rfl] at h
      obtain ⟨-, rfl⟩ := HTTPMessage.setExpectedBodySize_eq_ok.mp h
      exact .noBody hno
  | false =>
      rw [if_neg Bool.false_ne_true] at h
      obtain ⟨chunked, hchunked, h⟩ := bind_eq_ok.mp h
      cases chunked with
      | true =>
          rw [if_pos rfl] at h
          obtain ⟨m₁, hset, h⟩ := bind_eq_ok.mp h
          obtain ⟨-, rfl⟩ := HTTPMessage.setExpectedBodySize_eq_ok.mp hset
          cases h
          exact .chunked hno hchunked
      | false =>
          rw [if_neg Bool.false_ne_true] at h
          split at h
          · next hlength =>
              simp only [Bool.and_eq_true, Bool.not_eq_true'] at hlength
              simp only [bind_eq_ok] at h
              obtain ⟨v, hv, z, hz, h⟩ := h
              obtain ⟨-, rfl⟩ := HTTPMessage.setExpectedBodySize_eq_ok.mp h
              exact .length hno hlength.1 hv hz
          · next hlength =>
              simp only [Bool.and_eq_true, Bool.not_eq_true'] at hlength
              obtain ⟨multipart, hmulti, h⟩ := bind_eq_ok.mp h
              cases multipart with
              | true =>
                  rw [if_pos rfl] at h
                  obtain ⟨m₁, -, h⟩ := bind_eq_ok.mp h
                  cases h
              | false =>
                  rw [if_neg Bool.false_ne_true] at h
                  obtain ⟨m₁, hset, h⟩ := bind_eq_ok.mp h
                  obtain ⟨-, rfl⟩ := HTTPMessage.setExpectedBodySize_eq_ok.mp hset
                  cases h
                  exact .untilEof hno hchunked hlength hmulti

theorem Chooses.eq_ok {m r : HTTPResponse} (h : m.Chooses r) (hstate : m.state = .bodyPending) :
    m.calculateExpectedBodySize = .ok r := by
  have htest : (m.state == .bodyPending) = true := beq_iff_eq.mpr hstate
  have hset (known : Bool) (size : Nat) : m.setExpectedBodySize known size
      = .ok { m with expectedBodySize := (known, size) } :=
    HTTPMessage.setExpectedBodySize_eq_ok.mpr ⟨hstate, rfl⟩
  rw [calculateExpectedBodySize, htest, assertThat_true, ok_bind]
  cases h with
  | noBody hno => rw [hno, ok_bind, if_pos rfl, hset]
  | chunked hno hchunked =>
      rw [hno, ok_bind, if_neg Bool.false_ne_true, hchunked, ok_bind, if_pos rfl, hset]
      rfl
  | @length v z hno hte hv hz =>
      have hchunked : m.isChunked = .ok false := by simp [isChunked, hte]
      have hhas := HTTPMessage.hasHeader_of_getHeaderValue hv
      rw [hno, ok_bind, if_neg Bool.false_ne_true, hchunked, ok_bind, if_neg Bool.false_ne_true,
        hte, hhas, if_pos (by rfl), hv, ok_bind, hz, ok_bind, hset]
  | untilEof hno hchunked hlength hmulti =>
      have hlength' : ¬ (!m.hasHeader (ascii "Transfer-Encoding") &&
          m.hasHeader (ascii "Content-Length")) = true := by
        rwa [Bool.and_eq_true, Bool.not_eq_true']
      rw [hno, ok_bind, if_neg Bool.false_ne_true, hchunked, ok_bind, if_neg Bool.false_ne_true,
        if_neg hlength', hmulti, ok_bind, if_neg Bool.false_ne_true, hset]
      rfl

/-! ## One header line padded -/

section

variable {m : HTTPResponse} {before after : List HTTPHeader} {h h' : HTTPHeader} {name : Bytes}

/-- The response with other headers. -/
def withHeaders (m : HTTPResponse) (headers : List HTTPHeader) : HTTPResponse :=
  { m with headers := headers }

/-- The header with the key is the first one under the name. -/
def FirstUnder (name : Bytes) (before : List HTTPHeader) (key : Bytes) : Prop :=
  (∀ g ∈ before, equivalentStrings g.key name = false) ∧ equivalentStrings key name = true

theorem hasHeader_withHeaders (hheaders : m.headers = before ++ h :: after) (hkey : h'.key = h.key)
    (name : Bytes) : (m.withHeaders (before ++ h' :: after)).hasHeader name = m.hasHeader name := by
  rw [HTTPMessage.hasHeader, HTTPMessage.hasHeader, hheaders, withHeaders]
  simp only [List.any_append, List.any_cons, hkey]

theorem getHeaderValue_first (hheaders : m.headers = before ++ h :: after)
    (hfirst : FirstUnder name before h.key) : m.getHeaderValue name = .ok h.value := by
  have hnone : before.find? (fun g => equivalentStrings g.key name) = none := by
    rw [List.find?_eq_none]
    intro g hg
    simp [hfirst.1 g hg]
  rw [HTTPMessage.getHeaderValue, hheaders, List.find?_append, hnone, Option.none_or, List.find?_cons,
    hfirst.2]

theorem getHeaderValue_other (hheaders : m.headers = before ++ h :: after) (hkey : h'.key = h.key)
    (hfirst : ¬ FirstUnder name before h.key) :
    (m.withHeaders (before ++ h' :: after)).getHeaderValue name = m.getHeaderValue name := by
  have hfind : (before ++ h' :: after).find? (fun g => equivalentStrings g.key name)
      = (before ++ h :: after).find? fun g => equivalentStrings g.key name := by
    rw [List.find?_append, List.find?_append]
    cases hbefore : before.find? fun g => equivalentStrings g.key name with
    | some g => rfl
    | none =>
        have hnot : equivalentStrings h.key name = false := by
          refine Bool.eq_false_iff.mpr fun hname => hfirst ⟨fun g hg => ?_, hname⟩
          simpa using List.find?_eq_none.mp hbefore g hg
        rw [List.find?_cons, List.find?_cons, hkey, hnot]
  rw [HTTPMessage.getHeaderValue, HTTPMessage.getHeaderValue, hheaders, withHeaders]
  dsimp only
  rw [hfind]

theorem isChunked_other (hheaders : m.headers = before ++ h :: after) (hkey : h'.key = h.key)
    (hfirst : ¬ FirstUnder (ascii "Transfer-Encoding") before h.key) :
    (m.withHeaders (before ++ h' :: after)).isChunked = m.isChunked := by
  rw [isChunked, isChunked, hasHeader_withHeaders hheaders hkey,
    getHeaderValue_other hheaders hkey hfirst]

theorem isMultipart_other (hheaders : m.headers = before ++ h :: after) (hkey : h'.key = h.key)
    (hfirst : ¬ FirstUnder (ascii "Content-Type") before h.key) :
    (m.withHeaders (before ++ h' :: after)).isMultipart = m.isMultipart := by
  rw [isMultipart, isMultipart, hasHeader_withHeaders hheaders hkey,
    getHeaderValue_other hheaders hkey hfirst]

/-- `isChunked` looks at the last coding of the first `Transfer-Encoding`. -/
theorem isChunked_first (hheaders : m.headers = before ++ h :: after)
    (hfirst : FirstUnder (ascii "Transfer-Encoding") before h.key)
    (hlen : h.value.length < 2 ^ 64) :
    ∃ chunked, m.isChunked = .ok chunked ∧ (chunked = true ↔ LastCodingChunked h.value) := by
  have hvalue := getHeaderValue_first hheaders hfirst
  have hhas := HTTPMessage.hasHeader_of_getHeaderValue hvalue
  have hsplit : split h.value (ascii ",") = .ok (h.value.splitOn 44) := split_byte hlen
  obtain ⟨codings, last, hcodings⟩ :=
    (List.eq_nil_or_concat' (h.value.splitOn 44)).resolve_left (List.splitOn_ne_nil 44 _)
  refine ⟨equivalentStrings last (ascii "chunked"), ?_, ?_⟩
  · simp [isChunked, hhas, hvalue, hsplit, hcodings]
  · rw [lastCodingChunked_iff hlen hcodings, equivalentStrings_word isWord_chunked]

theorem isMultipart_first (hheaders : m.headers = before ++ h :: after)
    (hfirst : FirstUnder (ascii "Content-Type") before h.key) :
    m.isMultipart = .ok false ↔ OtherType h.value := by
  have hvalue := getHeaderValue_first hheaders hfirst
  have hhas := HTTPMessage.hasHeader_of_getHeaderValue hvalue
  rw [isMultipart, hhas, if_pos rfl, hvalue, ok_bind, bind_eq_ok]
  refine exists_congr fun type => and_congr_right fun _ => ?_
  rw [pure_eq_ok, Except.ok.injEq, ← equivalentStrings_word isWord_multipart, Bool.not_eq_true]

/-- The same framing as `r` has, and the same length. -/
def SameFraming (r m : HTTPResponse) : Prop :=
  ∃ r', m.calculateExpectedBodySize = .ok r' ∧ r'.expectedBodySize = r.expectedBodySize ∧
    r'.derived = r.derived

/-- The white space takes the framing away: it hides the last of the transfer codings
that frame the response, or stands behind the length that does. -/
def Disturbs (m : HTTPResponse) (before : List HTTPHeader) (p : PaddedLine) : Prop :=
  m.hasNoBody = .ok false ∧
    ((FirstUnder (ascii "Transfer-Encoding") before p.key ∧
        LastCodingChunked (fieldValue p.text) ∧
        (p.addedBack ≠ [] ∨ 44 ∉ p.value ∧ 9 ∈ p.addedFront)) ∨
      (m.hasHeader (ascii "Transfer-Encoding") = false ∧
        FirstUnder (ascii "Content-Length") before p.key ∧ p.addedBack ≠ []))

end

section

variable {m r : HTTPResponse} {before after : List HTTPHeader} {p : PaddedLine}

/-- The response with the header line `p`, and with the padded one. -/
structure HasLine (m : HTTPResponse) (before after : List HTTPHeader) (p : PaddedLine) : Prop where
  headers : m.headers = before ++ p.header :: after
  state : m.state = .bodyPending

def padded (m : HTTPResponse) (before after : List HTTPHeader) (p : PaddedLine) : HTTPResponse :=
  m.withHeaders (before ++ p.paddedHeader :: after)

theorem HasLine.hasHeader (h : m.HasLine before after p) (name : Bytes) :
    (m.padded before after p).hasHeader name = m.hasHeader name :=
  hasHeader_withHeaders h.headers p.paddedHeader_key name

theorem HasLine.sameFraming_of_chooses (h : m.HasLine before after p) {r' : HTTPResponse}
    (hr' : (m.padded before after p).Chooses r') (hsize : r'.expectedBodySize = r.expectedBodySize)
    (hderived : r'.derived = r.derived) : SameFraming r (m.padded before after p) :=
  ⟨r', hr'.eq_ok h.state, hsize, hderived⟩

/-- What `isChunked` finds after the padding, where it has found chunks before. -/
theorem HasLine.isChunked_padded (h : m.HasLine before after p) (hno : m.hasNoBody = .ok false)
    (hchunked : m.isChunked = .ok true) :
    ∃ c, (m.padded before after p).isChunked = .ok c ∧ (c = true ↔ ¬ Disturbs m before p) := by
  have hte : m.hasHeader (ascii "Transfer-Encoding") = true := by
    cases hte : m.hasHeader (ascii "Transfer-Encoding") with
    | true => rfl
    | false => simp [isChunked, hte] at hchunked
  by_cases hfirst : FirstUnder (ascii "Transfer-Encoding") before p.key
  · obtain ⟨c, hc, hlast⟩ := isChunked_first h.headers hfirst
      ((fieldValue_length_le _).trans_lt p.text_length_lt)
    obtain ⟨c', hc', hlast'⟩ := isChunked_first (m := m.padded before after p) rfl hfirst
      ((fieldValue_length_le _).trans_lt p.length_lt)
    obtain rfl : true = c := Except.ok.inj (hchunked.symm.trans hc)
    have hcoding := hlast.mp rfl
    rw [PaddedLine.header_value] at hcoding
    rw [PaddedLine.paddedHeader_value, PaddedLine.lastCodingChunked_padded] at hlast'
    refine ⟨c', hc', ?_⟩
    rw [hlast', Disturbs, hte]
    simp only [hno, hfirst, hcoding]
    by_cases hnil : p.addedBack = [] <;> by_cases hcomma : 44 ∈ p.value <;>
      by_cases htab : 9 ∈ p.addedFront <;> simp [hnil, hcomma, htab]
  · refine ⟨true, (isChunked_other h.headers p.paddedHeader_key hfirst).trans hchunked,
      iff_of_true rfl ?_⟩
    rintro ⟨-, ⟨hfirst', -⟩ | ⟨hnone, -⟩⟩
    · exact hfirst hfirst'
    · rw [hte] at hnone
      cases hnone

theorem HasLine.chunked_iff (h : m.HasLine before after p) (hno : m.hasNoBody = .ok false)
    (hchunked : m.isChunked = .ok true)
    (hr : r = { m with
      expectedBodySize := (false, npos)
      derived := { m.derived with
        bodyParser := some (.chunked (.initial (m.hasHeader (ascii "Trailer")))) } }) :
    SameFraming r (m.padded before after p) ↔ ¬ Disturbs m before p := by
  obtain ⟨c, hc, hdisturbs⟩ := h.isChunked_padded hno hchunked
  rw [← hdisturbs]
  constructor
  · rintro ⟨r', hcalc, -, hderived⟩
    obtain ⟨-, hchooses⟩ := chooses_of_eq_ok hcalc
    cases hchooses with
    | noBody hno' => exact absurd (hno.symm.trans hno') (by simp)
    | chunked _ hchunked' => exact Except.ok.inj (hc.symm.trans hchunked')
    | length _ hte _ _ =>
        rw [h.hasHeader] at hte
        simp [isChunked, hte] at hchunked
    | untilEof _ _ _ _ =>
        rw [hr] at hderived
        cases hderived
  · rintro rfl
    refine h.sameFraming_of_chooses (.chunked hno hc) ?_ ?_
    · rw [hr]
    · rw [hr, h.hasHeader]
      rfl

/-- What `myatoi` makes of the length after the padding: the number from before, or nothing. -/
theorem HasLine.length_padded (h : m.HasLine before after p) (hno : m.hasNoBody = .ok false)
    (hte : m.hasHeader (ascii "Transfer-Encoding") = false) {v : Bytes} {z : Int}
    (hv : m.getHeaderValue (ascii "Content-Length") = .ok v) (hz : myatoi v 10 = .ok z) :
    ∃ v', (m.padded before after p).getHeaderValue (ascii "Content-Length") = .ok v' ∧
      (¬ Disturbs m before p → myatoi v' 10 = .ok z) ∧
      ∀ z', myatoi v' 10 = .ok z' → ¬ Disturbs m before p := by
  have hnotFirst : ¬ FirstUnder (ascii "Transfer-Encoding") before p.key := by
    intro hfirst
    have := HTTPMessage.hasHeader_of_getHeaderValue (getHeaderValue_first h.headers hfirst)
    rw [hte] at this
    cases this
  by_cases hfirst : FirstUnder (ascii "Content-Length") before p.key
  · have hvalue := getHeaderValue_first h.headers hfirst
    obtain rfl := Except.ok.inj (hvalue.symm.trans hv)
    rw [myatoi_eq_ok_iff_denotes, PaddedLine.header_value, denotes_fieldValue] at hz
    have hdisturbs : Disturbs m before p ↔ p.addedBack ≠ [] := by
      simp only [Disturbs, hno, hnotFirst, hte, hfirst, true_and, false_and, false_or]
    refine ⟨_, getHeaderValue_first (m := m.padded before after p) rfl hfirst, ?_⟩
    simp only [hdisturbs, not_not, myatoi_eq_ok_iff_denotes, PaddedLine.paddedHeader_value,
      denotes_fieldValue, PaddedLine.denotes_padded]
    exact ⟨fun hnil => ⟨⟨hz.1, hnil⟩, hz.2⟩, fun _ hz' => hz'.1.2⟩
  · have hdisturbs : ¬ Disturbs m before p := by
      rintro ⟨-, ⟨hfirst', -⟩ | ⟨-, hfirst', -⟩⟩
      · exact hnotFirst hfirst'
      · exact hfirst hfirst'
    exact ⟨v, (getHeaderValue_other h.headers p.paddedHeader_key hfirst).trans hv,
      fun _ => hz, fun _ _ => hdisturbs⟩

theorem HasLine.length_iff (h : m.HasLine before after p) (hno : m.hasNoBody = .ok false)
    (hte : m.hasHeader (ascii "Transfer-Encoding") = false) {v : Bytes} {z : Int}
    (hv : m.getHeaderValue (ascii "Content-Length") = .ok v) (hz : myatoi v 10 = .ok z)
    (hr : r = { m with expectedBodySize := (true, toSizeT z) }) :
    SameFraming r (m.padded before after p) ↔ ¬ Disturbs m before p := by
  have hte' : (m.padded before after p).hasHeader (ascii "Transfer-Encoding") = false :=
    (h.hasHeader _).trans hte
  obtain ⟨v', hv', hkeeps, hreads⟩ := h.length_padded hno hte hv hz
  constructor
  · rintro ⟨r', hcalc, -, -⟩
    obtain ⟨-, hchooses⟩ := chooses_of_eq_ok hcalc
    cases hchooses with
    | noBody hno' => exact absurd (hno.symm.trans hno') (by simp)
    | chunked _ hchunked' =>
        rw [isChunked, hte'] at hchunked'
        cases hchunked'
    | @length w z' _ _ hw hz' =>
        obtain rfl := Except.ok.inj (hv'.symm.trans hw)
        exact hreads z' hz'
    | untilEof _ _ hnot _ =>
        exact absurd ⟨hte', HTTPMessage.hasHeader_of_getHeaderValue hv'⟩ hnot
  · intro hdisturbs
    refine h.sameFraming_of_chooses (.length hno hte' hv' (hkeeps hdisturbs)) ?_ ?_
    · rw [hr]
    · rw [hr]
      rfl

theorem HasLine.untilEof_iff (h : m.HasLine before after p) (hno : m.hasNoBody = .ok false)
    (hchunked : m.isChunked = .ok false)
    (hlength : ¬ (m.hasHeader (ascii "Transfer-Encoding") = false ∧
      m.hasHeader (ascii "Content-Length") = true))
    (hmulti : m.isMultipart = .ok false)
    (hr : r = { m with
      expectedBodySize := (false, npos)
      derived := { m.derived with bodyParser := some .rule5 } }) :
    SameFraming r (m.padded before after p) ↔ ¬ Disturbs m before p := by
  have hlen : (fieldValue p.text).length < 2 ^ 64 :=
    (fieldValue_length_le _).trans_lt p.text_length_lt
  have hcoding (hfirst : FirstUnder (ascii "Transfer-Encoding") before p.key) :
      ¬ LastCodingChunked (fieldValue p.text) := by
    obtain ⟨c, hc, hlast⟩ := isChunked_first h.headers hfirst hlen
    obtain rfl : false = c := Except.ok.inj (hchunked.symm.trans hc)
    exact fun hcoding => Bool.false_ne_true (hlast.mpr hcoding)
  have hchunked' : (m.padded before after p).isChunked = .ok false := by
    by_cases hfirst : FirstUnder (ascii "Transfer-Encoding") before p.key
    · obtain ⟨c, hc, hlast⟩ := isChunked_first (m := m.padded before after p) rfl hfirst
        ((fieldValue_length_le _).trans_lt p.length_lt)
      cases c with
      | false => exact hc
      | true => exact absurd (PaddedLine.lastCodingChunked_padded.mp (hlast.mp rfl)).1 (hcoding hfirst)
    · exact (isChunked_other h.headers p.paddedHeader_key hfirst).trans hchunked
  have hmulti' : (m.padded before after p).isMultipart = .ok false := by
    by_cases hfirst : FirstUnder (ascii "Content-Type") before p.key
    · rw [isMultipart_first h.headers hfirst] at hmulti
      exact (isMultipart_first (m := m.padded before after p) rfl hfirst).mpr
        (PaddedLine.otherType_padded hmulti)
    · exact (isMultipart_other h.headers p.paddedHeader_key hfirst).trans hmulti
  have hlength' : ¬ ((m.padded before after p).hasHeader (ascii "Transfer-Encoding") = false ∧
      (m.padded before after p).hasHeader (ascii "Content-Length") = true) := by
    rwa [h.hasHeader, h.hasHeader]
  refine iff_of_true (h.sameFraming_of_chooses (.untilEof hno hchunked' hlength' hmulti') ?_ ?_) ?_
  · rw [hr]
  · rw [hr]
    rfl
  · rintro ⟨-, ⟨hfirst, hlast, -⟩ | ⟨hte, hfirst, -⟩⟩
    · exact hcoding hfirst hlast
    · exact hlength ⟨hte, HTTPMessage.hasHeader_of_getHeaderValue
        (getHeaderValue_first h.headers hfirst)⟩

/-- **Added white space keeps the framing unless it hides the coding or follows the
length that decides it.** -/
theorem same_framing_iff {h h' : HTTPHeader} (hline : HTTPHeader.ofLine p.line = .ok h)
    (hpadded : HTTPHeader.ofLine p.paddedLine = .ok h') (hheaders : m.headers = before ++ h :: after)
    (hcalc : m.calculateExpectedBodySize = .ok r) :
    SameFraming r (m.withHeaders (before ++ h' :: after)) ↔ ¬ Disturbs m before p := by
  obtain rfl := Except.ok.inj (p.ofLine_line.symm.trans hline)
  obtain rfl := Except.ok.inj (p.ofLine_paddedLine.symm.trans hpadded)
  obtain ⟨hstate, hchooses⟩ := chooses_of_eq_ok hcalc
  have h : m.HasLine before after p := ⟨hheaders, hstate⟩
  cases hchooses with
  | noBody hno =>
      refine iff_of_true (h.sameFraming_of_chooses (.noBody hno) rfl rfl) ?_
      rintro ⟨hno', -⟩
      exact absurd (hno.symm.trans hno') (by simp)
  | chunked hno hchunked => exact h.chunked_iff hno hchunked rfl
  | length hno hte hv hz => exact h.length_iff hno hte hv hz rfl
  | untilEof hno hchunked hlength hmulti => exact h.untilEof_iff hno hchunked hlength hmulti rfl

end

/-! ## A space behind the coding -/

/-- A response that is chunked. -/
def chunkedResponse : HTTPResponse where
  expectedBodySize := (false, npos)
  firstLine := ascii "HTTP/1.1 200 OK"
  headers := [⟨ascii "Transfer-Encoding", ascii "chunked"⟩]
  body := []
  state := .bodyPending
  derived := ⟨.bare (ascii "GET / HTTP/1.1"), none⟩

/-- With a space behind `chunked`, the response goes on until the connection ends. -/
theorem space_hides_chunked :
    HTTPHeader.ofLine (ascii "Transfer-Encoding: chunked")
        = .ok ⟨ascii "Transfer-Encoding", ascii "chunked"⟩ ∧
      HTTPHeader.ofLine (ascii "Transfer-Encoding: chunked ")
        = .ok ⟨ascii "Transfer-Encoding", ascii "chunked "⟩ ∧
      (∃ r, chunkedResponse.calculateExpectedBodySize = .ok r ∧
        r.derived.bodyParser = some (.chunked (.initial false))) ∧
      ∃ r, (chunkedResponse.withHeaders
          [⟨ascii "Transfer-Encoding", ascii "chunked "⟩]).calculateExpectedBodySize = .ok r ∧
        r.derived.bodyParser = some .rule5 :=
  ⟨by rfl, by rfl, ⟨_, by rfl, by rfl⟩, ⟨_, by rfl, by rfl⟩⟩

/-- A space in front of `chunked`. -/
def chunkedLine : PaddedLine where
  key := ascii "Transfer-Encoding"
  front := []
  value := ascii "chunked"
  back := []
  addedFront := ascii " "
  addedBack := []
  key_colon := by decide +kernel
  front_lws := by decide +kernel
  back_lws := by decide +kernel
  addedFront_lws := by decide +kernel
  addedBack_lws := by decide +kernel
  length_lt := by decide +kernel

theorem same_framing_iff_chunkedLine :
    ∃ h h' r, HTTPHeader.ofLine chunkedLine.line = .ok h ∧
      HTTPHeader.ofLine chunkedLine.paddedLine = .ok h' ∧ chunkedResponse.headers = [] ++ h :: [] ∧
      chunkedResponse.calculateExpectedBodySize = .ok r ∧
      (SameFraming r (chunkedResponse.withHeaders ([] ++ h' :: [])) ↔
        ¬ Disturbs chunkedResponse [] chunkedLine) :=
  ⟨_, _, _, by rfl, by rfl, by rfl, by rfl, same_framing_iff (by rfl) (by rfl) (by rfl) (by rfl)⟩

end HTTPResponse

end Mahimahi
