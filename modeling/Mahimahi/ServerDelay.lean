import Mahimahi.HTTPRoundTrip
import Mahimahi.TextLines

/-!
# The delay of a replayed response

`replayserver_delay` delays a response by what a file says of the recorded request:
each line has a method, a URL and a delay, with tabs between them. The fields of a
line, and of the request's first line, are indexed without looking how many there are.

A line up to the first one for the request must have the fields that are looked at: a
first field; if that is the method, a second one, which the request must have as well;
and a third if both agree (`HasFields`). The lookup stays inside the fields if and only
if all these lines have them, and then it gives the delay of the first line for the
request (`server_delay_total_iff`). The request itself is no source of trouble: what the
recorder saves has a method (`HTTPRequest.Saved.method`).
-/

namespace Mahimahi

/-! ## The lookup -/

/-- What successive calls of `getline` with a delimiter give. -/
def splitLine (line : Bytes) (delimitter : UInt8) : List Bytes :=
  let parts := line.splitOn delimitter
  if parts.getLast? = some [] then parts.dropLast else parts

/-- `tokens[ i ]`. -/
def tokenAt (tokens : List Bytes) (i : Nat) : Except Fault Bytes :=
  match tokens[i]? with
  | none => .error .outOfBounds
  | some token => .ok token

/-- `stoi`. Its `invalid_argument` is a `runtimeError` here, with the same text. -/
def stoi (s : Bytes) : Except Fault Int :=
  let ret := strtol s 10
  if ret.length = 0 then .error (.runtimeError "stoi")
  else if ret.outOfRange = true ∨ ret.value < - 2 ^ 31 ∨ 2 ^ 31 ≤ ret.value then .error .outOfRange
  else .ok ret.value

/-- One turn of the loop: the delay, if the line is for the request. -/
def delayOfLine (splitted : List Bytes) (line : Bytes) : Except Fault (Option Nat) := do
  let splitted2 := splitLine line 9
  if (← tokenAt splitted 0) ≠ (← tokenAt splitted2 0) then
    return none
  if (← tokenAt splitted 1) ≠ (← tokenAt splitted2 1) then
    return none
  let delay ← stoi (← tokenAt splitted2 2)
  return some (if 0 ≤ delay then delay.toNat else 0)

/-- The loop over the lines. -/
def findDelay (splitted : List Bytes) : List Bytes → Except Fault Nat
  | [] => .ok 0
  | line :: rest => do
      match ← delayOfLine splitted line with
      | some delay => return delay
      | none => findDelay splitted rest

/-- `get_server_delay`, for the file at `delayPath`, if there is one. -/
def getServerDelay (delayPath : Bytes) (delayFile : Option Bytes) (request : HTTPRequest) :
    Except Fault Nat :=
  match delayFile with
  | none => .error (.runtimeErrorWith "No server-delay file found! Expected path: " delayPath)
  | some text => findDelay (splitLine request.firstLine 32) (lines text)

/-! ## What the lookup is for -/

/-- The method and the URL of the line are those of the request's first line. -/
def IsFor (firstLine line : Bytes) : Prop :=
  ∃ method url, (splitLine firstLine 32)[0]? = some method ∧ (splitLine firstLine 32)[1]? = some url ∧
    (splitLine line 9)[0]? = some method ∧ (splitLine line 9)[1]? = some url

/-- `n` is the delay of the first line for the request, or 0 if that is negative or there
is no such line. -/
def GivesDelay (firstLine : Bytes) (ls : List Bytes) (n : Nat) : Prop :=
  ((∀ line ∈ ls, ¬ IsFor firstLine line) ∧ n = 0) ∨
    ∃ before line after delay z, ls = before ++ line :: after ∧ (∀ l ∈ before, ¬ IsFor firstLine l) ∧
      IsFor firstLine line ∧ (splitLine line 9)[2]? = some delay ∧ stoi delay = .ok z ∧
      n = if 0 ≤ z then z.toNat else 0

/-- The line has the fields that are looked at. -/
structure HasFields (firstLine line : Bytes) : Prop where
  method : line ≠ []
  url : (splitLine line 9)[0]? = (splitLine firstLine 32)[0]? →
    2 ≤ (splitLine firstLine 32).length ∧ 2 ≤ (splitLine line 9).length
  delay : IsFor firstLine line → 3 ≤ (splitLine line 9).length

/-- So have all lines up to the first one for the request. -/
def FieldsUpToMatch (firstLine : Bytes) (ls : List Bytes) : Prop :=
  ∀ before line after, ls = before ++ line :: after → (∀ l ∈ before, ¬ IsFor firstLine l) →
    HasFields firstLine line

section

variable {firstLine line delay : Bytes} {before rest : List Bytes} {n : Nat}

theorem GivesDelay.skip (h : ¬ IsFor firstLine line) (hrest : GivesDelay firstLine rest n) :
    GivesDelay firstLine (line :: rest) n := by
  rcases hrest with ⟨hnone, hn⟩ | ⟨before, line', after, delay, z, hrest, hbefore, hfor⟩
  · refine .inl ⟨?_, hn⟩
    rw [List.forall_mem_cons]
    exact ⟨h, hnone⟩
  · refine .inr ⟨line :: before, line', after, delay, z, by rw [hrest, List.cons_append], ?_, hfor⟩
    rw [List.forall_mem_cons]
    exact ⟨h, hbefore⟩

theorem GivesDelay.found {z : Int} (h : IsFor firstLine line)
    (hdelay : (splitLine line 9)[2]? = some delay) (hz : stoi delay = .ok z) :
    GivesDelay firstLine (line :: rest) (if 0 ≤ z then z.toNat else 0) :=
  .inr ⟨[], line, rest, delay, z, rfl, by simp, h, hdelay, hz, rfl⟩

theorem fieldsUpToMatch_cons :
    FieldsUpToMatch firstLine (line :: rest) ↔
      HasFields firstLine line ∧ (¬ IsFor firstLine line → FieldsUpToMatch firstLine rest) := by
  constructor
  · intro h
    refine ⟨h [] line rest rfl (by simp), fun hnot before line' after hrest hbefore => ?_⟩
    refine h (line :: before) line' after (by rw [hrest, List.cons_append]) ?_
    rw [List.forall_mem_cons]
    exact ⟨hnot, hbefore⟩
  · rintro ⟨hline, hrest⟩ before line' after heq hbefore
    cases before with
    | nil =>
        obtain ⟨rfl, -⟩ := List.cons.inj heq
        exact hline
    | cons l before =>
        obtain ⟨rfl, htail⟩ := List.cons.inj heq
        rw [List.forall_mem_cons] at hbefore
        exact hrest hbefore.1 before line' after htail hbefore.2

/-! ## Fields -/

theorem splitLine_eq_nil {d : UInt8} : splitLine line d = [] ↔ line = [] := by
  constructor
  · intro h
    have hparts := List.splitOn_ne_nil d line
    rw [splitLine] at h
    split at h
    · next hlast =>
        obtain ⟨init, hinit⟩ := List.getLast?_eq_some_iff.mp hlast
        rw [hinit, List.dropLast_concat] at h
        have hjoin : [d].intercalate (line.splitOn d) = line := List.intercalate_splitOn d
        rw [← hjoin, hinit, h]
        rfl
    · exact absurd h hparts
  · rintro rfl
    rfl

theorem stoi_ne_outOfBounds (s : Bytes) : stoi s ≠ .error .outOfBounds := by
  unfold stoi
  dsimp only
  split
  · simp
  · split <;> simp

theorem isFor_iff {method : Bytes} {args fields : List Bytes}
    (hargs : splitLine firstLine 32 = method :: args) (hfields : splitLine line 9 = method :: fields) :
    IsFor firstLine line ↔ ∃ url, args.head? = some url ∧ fields.head? = some url := by
  simp only [IsFor, hargs, hfields, List.getElem?_cons_zero, List.getElem?_cons_succ,
    List.head?_eq_getElem?]
  constructor
  · rintro ⟨-, url, -, hurl, -, hurl'⟩
    exact ⟨url, hurl, hurl'⟩
  · rintro ⟨url, hurl, hurl'⟩
    exact ⟨method, url, rfl, hurl, rfl, hurl'⟩

/-- What a turn can come to. -/
inductive Turn (firstLine line : Bytes) : Except Fault (Option Nat) → Prop
  | missing : ¬ HasFields firstLine line → Turn firstLine line (.error .outOfBounds)
  | other : HasFields firstLine line → ¬ IsFor firstLine line → Turn firstLine line (.ok none)
  | found {text : Bytes} : HasFields firstLine line → IsFor firstLine line →
      (splitLine line 9)[2]? = some text →
      Turn firstLine line ((fun z : Int => some (if 0 ≤ z then z.toNat else 0)) <$> stoi text)

theorem delayOfLine_of_method {method : Bytes} {args fields : List Bytes} (hline : line ≠ [])
    (hargs : splitLine firstLine 32 = method :: args) (hfields : splitLine line 9 = method :: fields) :
    Turn firstLine line (delayOfLine (splitLine firstLine 32) line) := by
  have hkeys : (splitLine line 9)[0]? = (splitLine firstLine 32)[0]? := by rw [hargs, hfields]; rfl
  cases args with
  | nil =>
      have hturn : delayOfLine (splitLine firstLine 32) line = .error .outOfBounds := by
        simp [delayOfLine, hargs, hfields, tokenAt]
      rw [hturn]
      refine .missing fun h => ?_
      have hurl := (h.url hkeys).1
      simp [hargs] at hurl
  | cons url args =>
      cases fields with
      | nil =>
          have hturn : delayOfLine (splitLine firstLine 32) line = .error .outOfBounds := by
            simp [delayOfLine, hargs, hfields, tokenAt]
          rw [hturn]
          refine .missing fun h => ?_
          have hurl := (h.url hkeys).2
          simp [hfields] at hurl
      | cons url' fields =>
          have hlengths : 2 ≤ (splitLine firstLine 32).length ∧ 2 ≤ (splitLine line 9).length := by
            simp [hargs, hfields]
          by_cases hurl : url = url'
          · subst hurl
            have hfor : IsFor firstLine line := (isFor_iff hargs hfields).mpr ⟨url, rfl, rfl⟩
            cases fields with
            | nil =>
                have hturn : delayOfLine (splitLine firstLine 32) line = .error .outOfBounds := by
                  simp [delayOfLine, hargs, hfields, tokenAt]
                rw [hturn]
                refine .missing fun h => ?_
                have hdelay := h.delay hfor
                simp [hfields] at hdelay
            | cons delay fields =>
                have hturn : delayOfLine (splitLine firstLine 32) line
                    = (fun z : Int => some (if 0 ≤ z then z.toNat else 0)) <$> stoi delay := by
                  simp [delayOfLine, hargs, hfields, tokenAt]
                  rfl
                rw [hturn]
                exact .found ⟨hline, fun _ => hlengths, fun _ => by simp [hfields]⟩ hfor
                  (by rw [hfields]; rfl)
          · have hturn : delayOfLine (splitLine firstLine 32) line = .ok none := by
              simp [delayOfLine, hargs, hfields, tokenAt, hurl]
            have hnot : ¬ IsFor firstLine line := by
              intro h
              obtain ⟨u, hu, hu'⟩ := (isFor_iff hargs hfields).mp h
              exact hurl (Option.some.inj (hu.trans hu'.symm))
            rw [hturn]
            exact .other ⟨hline, fun _ => hlengths, fun h => absurd h hnot⟩ hnot

/-- **What a turn does**, by the fields of the line. -/
theorem delayOfLine_turn (hfirst : firstLine ≠ []) (line : Bytes) :
    Turn firstLine line (delayOfLine (splitLine firstLine 32) line) := by
  obtain ⟨method, args, hargs⟩ := List.exists_cons_of_ne_nil (mt splitLine_eq_nil.mp hfirst)
  by_cases hline : line = []
  · have hturn : delayOfLine (splitLine firstLine 32) line = .error .outOfBounds := by
      rw [delayOfLine, splitLine_eq_nil.mpr hline, hargs]
      rfl
    rw [hturn]
    exact .missing fun h => h.method hline
  obtain ⟨field, fields, hfields⟩ := List.exists_cons_of_ne_nil (mt splitLine_eq_nil.mp hline)
  by_cases hmethod : method = field
  · subst hmethod
    exact delayOfLine_of_method hline hargs hfields
  · have hturn : delayOfLine (splitLine firstLine 32) line = .ok none := by
      simp [delayOfLine, hargs, hfields, tokenAt, hmethod]
    have hnot : ¬ IsFor firstLine line := by
      rintro ⟨m, url, hm, -, hm', -⟩
      rw [hargs] at hm
      rw [hfields] at hm'
      exact hmethod (Option.some.inj (hm.trans hm'.symm))
    rw [hturn]
    refine .other ⟨hline, fun h => ?_, fun h => absurd h hnot⟩ hnot
    rw [hargs, hfields] at h
    exact absurd (Option.some.inj h).symm hmethod

theorem findDelay_of_fields (hfirst : firstLine ≠ []) : ∀ {ls : List Bytes},
    FieldsUpToMatch firstLine ls →
    findDelay (splitLine firstLine 32) ls ≠ .error .outOfBounds ∧
      ∀ n, findDelay (splitLine firstLine 32) ls = .ok n → GivesDelay firstLine ls n
  | [], _ => by
      refine ⟨by simp [findDelay], fun n hn => .inl ⟨by simp, ?_⟩⟩
      cases hn
      rfl
  | line :: rest, h => by
      obtain ⟨hline, hrest⟩ := fieldsUpToMatch_cons.mp h
      have hturn := delayOfLine_turn hfirst line
      rw [findDelay]
      generalize delayOfLine (splitLine firstLine 32) line = r at hturn
      cases hturn with
      | missing hnot => exact absurd hline hnot
      | other _ hnot =>
          obtain ⟨hbounds, hgives⟩ := findDelay_of_fields hfirst (hrest hnot)
          exact ⟨hbounds, fun n hn => (hgives n hn).skip hnot⟩
      | @found text _ hfor htext =>
          cases hz : stoi text with
          | error e =>
              refine ⟨fun h => ?_, fun n hn => (by cases hn)⟩
              cases h
              exact stoi_ne_outOfBounds text hz
          | ok z =>
              refine ⟨fun h => (by cases h), fun n hn => ?_⟩
              cases hn
              exact .found hfor htext hz

theorem findDelay_of_missing (hfirst : firstLine ≠ []) : ∀ {ls : List Bytes},
    ¬ FieldsUpToMatch firstLine ls →
    findDelay (splitLine firstLine 32) ls = .error .outOfBounds
  | [], h => by
      refine absurd (fun before line after heq => ?_) h
      simp at heq
  | line :: rest, h => by
      rw [fieldsUpToMatch_cons] at h
      have hturn := delayOfLine_turn hfirst line
      rw [findDelay]
      generalize delayOfLine (splitLine firstLine 32) line = r at hturn
      cases hturn with
      | missing => rfl
      | other hline hnot => exact findDelay_of_missing hfirst fun hrest => h ⟨hline, fun _ => hrest⟩
      | found hline hfor => exact absurd ⟨hline, fun hnot => absurd hfor hnot⟩ h

end

/-! ## Requests that have been saved -/

/-- A request that the recorder can have saved: a call of its parser completes it. -/
def HTTPRequest.Saved (m : HTTPRequest) : Prop :=
  ∃ (bufs : List Bytes) (buf : Bytes) (c : HTTPRequestParser),
    HTTPMessageSequence.parseCalls bufs (.initial ()) = .ok c ∧
      m ∈ (HTTPMessageSequence.extracted (c.parse buf)).drop c.completeMessages.length

theorem HTTPRequest.Saved.firstLine_ne_nil {m : HTTPRequest} (h : m.Saved) : m.firstLine ≠ [] := by
  obtain ⟨bufs, buf, c, hparse, hm⟩ := h
  have hpaused := HTTPRequestParser.parseCalls_paused (HTTPMessageSequence.paused_initial ()) hparse
  obtain ⟨head, m₀, hopens, -⟩ := (HTTPMessageSequence.parse_leaves hpaused
    fun _ _ => HTTPRequestParser.smallRun (c.feed buf)).2 m hm
  intro hnil
  have hcalc : HTTPRequest.calculateExpectedBodySize { head with state := .bodyPending } = .ok m₀ :=
    hopens.calculate
  rw [hopens.firstLine] at hnil
  simp [calculateExpectedBodySize, hnil, ascii] at hcalc

/-! ## The lookup for all files -/

/-- **The lookup stays inside the fields, and gives the right delay, if and only if the
lines up to the first one for the request have the fields that are looked at.** -/
theorem server_delay_total_iff (m : HTTPRequest) (h : m.Saved) (delayPath : Bytes)
    (delayFile : Option Bytes) :
    (getServerDelay delayPath delayFile m ≠ .error .outOfBounds ∧
      ∀ n, getServerDelay delayPath delayFile m = .ok n →
        ∃ text, delayFile = some text ∧ GivesDelay m.firstLine (lines text) n) ↔
    ∀ text, delayFile = some text → FieldsUpToMatch m.firstLine (lines text) := by
  cases delayFile with
  | none => exact iff_of_true ⟨by simp [getServerDelay], by simp [getServerDelay]⟩ (by simp)
  | some text =>
      have hfirst := h.firstLine_ne_nil
      constructor
      · rintro ⟨hbounds, -⟩ text' heq
        cases heq
        by_contra hnot
        exact hbounds (findDelay_of_missing hfirst hnot)
      · intro hfields
        obtain ⟨hbounds, hgives⟩ := findDelay_of_fields hfirst (hfields text rfl)
        exact ⟨hbounds, fun n hn => ⟨text, rfl, hgives n hn⟩⟩

/-- A GET request, and the file that says 8 for it. -/
def rootRequest : HTTPRequest := .bare (ascii "GET / HTTP/1.1")

def rootDelays : Bytes := ascii "GET\t/\t8\n"

theorem saved_rootRequest : rootRequest.Saved :=
  ⟨[], ascii "GET / HTTP/1.1\r\n\r\n", .initial (), rfl, by decide +kernel⟩

theorem server_delay_total_iff_rootDelays :
    getServerDelay [] (some rootDelays) rootRequest = .ok 8 ∧
      FieldsUpToMatch rootRequest.firstLine (lines rootDelays) := by
  have hok : getServerDelay [] (some rootDelays) rootRequest = .ok 8 := by decide +kernel
  refine ⟨hok, (server_delay_total_iff rootRequest saved_rootRequest [] (some rootDelays)).mp
    ⟨by rw [hok]; simp, fun n hn => ⟨rootDelays, rfl, ?_⟩⟩ rootDelays rfl⟩
  obtain rfl := Except.ok.inj (hok.symm.trans hn)
  refine .inr ⟨[], ascii "GET\t/\t8", [], ascii "8", 8, by decide +kernel, by simp, ?_, by decide +kernel,
    by decide +kernel, rfl⟩
  exact ⟨ascii "GET", ascii "/", by decide +kernel, by decide +kernel, by decide +kernel,
    by decide +kernel⟩

/-- An empty line in front of it has no method to compare. -/
theorem empty_line_reads_past : rootRequest.Saved ∧
    getServerDelay [] (some (10 :: rootDelays)) rootRequest = .error .outOfBounds :=
  ⟨saved_rootRequest, by decide +kernel⟩

end Mahimahi
