import Mathlib.Algebra.Order.Ring.Rat
import Mathlib.Data.Nat.Cast.Order.Ring
import Mathlib.Tactic.Ring
import Mahimahi.TextLines
import Mahimahi.LinkQueue

/-!
# Log files and the throughput graph

The link writes its log line by line with `<<`; `mm-throughput-graph` reads
the lines, and stops with `die` at the first that it cannot use. Here are
both sides: `logLine` with the texts that the `record_*` methods write, and
`processLine` with the main loop of the script.

A number that has been written is read back (`isNumber_decimal`,
`digitsValue_decimal`), so of a line that is written the script gets the
fields that were put in (`splitSpaces_join`). All lines are usable but
those for drops, as long as a packet has not arrived before the base
timestamp (`processLine_logLine`).
-/

namespace Mahimahi

/-! ## Numbers in text -/

theorem digitValue_cases : ∀ n < 58, 48 ≤ n → digitValue n.toUInt8 = some (n - 48) := by
  decide +kernel

theorem digitValue_of_isDigit {c : Char} (h : c.isDigit = true) :
    digitValue c.toNat.toUInt8 = some (c.toNat - 48) ∧ c.toNat - 48 < 10 := by
  have h48 : 48 ≤ c.toNat ∧ c.toNat ≤ 57 := by
    simpa [Char.isDigit, UInt32.le_iff_toNat_le] using h
  exact ⟨digitValue_cases c.toNat (by omega) h48.1, by omega⟩

theorem decimal_eq (n : Nat) : decimal n = (Nat.toDigits 10 n).map fun c => c.toNat.toUInt8 := by
  rw [decimal, ascii, Nat.toString_eq_ofList_toDigits, String.toList_ofList]

theorem isDigit_of_mem_toDigits {n : Nat} {c : Char} (hc : c ∈ Nat.toDigits 10 n) :
    digitValue c.toNat.toUInt8 = some (c.toNat - 48) ∧ c.toNat - 48 < 10 :=
  digitValue_of_isDigit (Nat.isDigit_of_mem_toDigits (by decide) (by decide) hc)

theorem isNumber_decimal (n : Nat) : IsNumber 10 (decimal n) := by
  rw [decimal_eq]
  refine ⟨by simp, fun b hb => ?_⟩
  obtain ⟨c, hc, rfl⟩ := List.mem_map.mp hb
  obtain ⟨hvalue, hlt⟩ := isDigit_of_mem_toDigits hc
  simp [isDigitOf, hvalue, hlt]

theorem foldl_digitValue : ∀ (cs : List Char) (k : Nat),
    (∀ c ∈ cs, digitValue c.toNat.toUInt8 = some (c.toNat - 48)) →
    (cs.map fun c => c.toNat.toUInt8).foldl (fun n c => n * 10 + (digitValue c).getD 0) k
      = Nat.ofDigitChars 10 cs k
  | [], k, _ => rfl
  | c :: cs, k, h => by
      rw [List.map_cons, List.foldl_cons, h c (by simp), Option.getD_some, Nat.ofDigitChars_cons,
        foldl_digitValue cs _ fun d hd => h d (by simp [hd]), Nat.mul_comm k 10]
      rfl

theorem digitsValue_decimal (n : Nat) : digitsValue 10 (decimal n) = n := by
  rw [decimal_eq, digitsValue, foldl_digitValue _ _ fun c hc => (isDigit_of_mem_toDigits hc).1,
    Nat.ofDigitChars_ten_toDigits]

/-! ## The log -/

/-- What the `record_*` methods write, up to the line's end. -/
def logLine : Record → Bytes
  | .arrival time size => decimal time ++ ascii " + " ++ decimal size
  | .drop time packets bytes =>
      decimal time ++ ascii " d " ++ decimal packets ++ ascii " " ++ decimal bytes
  | .opportunity time size => decimal time ++ ascii " # " ++ decimal size
  | .departure time packet =>
      decimal time ++ ascii " - " ++ decimal packet.size ++ ascii " "
        ++ decimal (sub64 time packet.arrivalTime)

/-- The line of the log's head that the readers use. -/
def baseLine (baseTimestamp : Nat) : Bytes := ascii "# base timestamp: " ++ decimal baseTimestamp

/-- The log from that line on. -/
def logText (baseTimestamp : Nat) (records : List Record) : Bytes :=
  (baseLine baseTimestamp :: records.map logLine).flatMap (· ++ [10])

/-! ## mm-throughput-graph -/

/-- `m{^\d+$}`, for a field. -/
def isDigits (field : Bytes) : Bool := !field.isEmpty && field.all (isDigitOf 10)

/-- `split /\s+/`, for up to four fields: white space in front of the first
field or behind the last one has an empty field on its other side. -/
def splitSpaces (line : Bytes) : List Bytes :=
  if line.isEmpty then []
  else
    (if (line.head?.map isSpace).getD false then [[]] else []) ++ columns line ++
      (if (line.getLast?.map isSpace).getD false then [[]] else [])

/-- `m{^# base timestamp: (\d+)}`. -/
def baseTimestampOf (line : Bytes) : Option Nat :=
  if (ascii "# base timestamp: ").isPrefixOf line then
    let digits := (line.drop (ascii "# base timestamp: ").length).takeWhile (isDigitOf 10)
    if digits.isEmpty then none else some (digitsValue 10 digits)
  else none

/-- A field as a number: the decimal number that it begins with. An exponent,
which the link does not write, is not read. -/
def numify (field : Bytes) : ℚ :=
  let s := field.dropWhile isSpace
  let (negative, s) :=
    match s with
    | 45 :: rest => (true, rest)
    | 43 :: rest => (false, rest)
    | _ => (false, s)
  let whole := s.takeWhile (isDigitOf 10)
  let fraction :=
    match s.dropWhile (isDigitOf 10) with
    | 46 :: rest => rest.takeWhile (isDigitOf 10)
    | _ => []
  let magnitude : ℚ := digitsValue 10 whole + digitsValue 10 fraction / 10 ^ fraction.length
  if negative then - magnitude else magnitude

/-- The variables of the script. A hash is a function, and a timestamp is
counted from the base timestamp. Perl does not divide by a `$MS_PER_BIN` of 0. -/
structure ThroughputGraph where
  msPerBin : {n : Nat // 0 < n}
  capacity : Int → Nat
  arrivals : Int → Nat
  departures : Int → Nat
  firstTimestamp : Option Int
  lastTimestamp : Option Int
  baseTimestamp : Option Nat
  capacitySum : Nat
  arrivalSum : Nat
  departureSum : Nat
  delays : List ℚ
  signalDelay : ℚ → Option ℚ

namespace ThroughputGraph

def initial (msPerBin : {n : Nat // 0 < n}) : ThroughputGraph where
  msPerBin := msPerBin
  capacity := fun _ => 0
  arrivals := fun _ => 0
  departures := fun _ => 0
  firstTimestamp := none
  lastTimestamp := none
  baseTimestamp := none
  capacitySum := 0
  arrivalSum := 0
  departureSum := 0
  delays := []
  signalDelay := fun _ => none

/-- `int( $_[0] / $MS_PER_BIN )`. -/
def msToBin (timestamp : Int) (g : ThroughputGraph) : Int := timestamp.tdiv g.msPerBin.val

/-- `$hash{ $key } += $amount`. -/
def addTo (hash : Int → Nat) (key : Int) (amount : Nat) : Int → Nat :=
  fun k => if k = key then hash k + amount else hash k

/-- The event of a line, at its timestamp. -/
def processEvent (timestamp : Int) (eventType : Bytes) (numBits : Nat) (delay : Option Bytes)
    (g : ThroughputGraph) : Except Bytes ThroughputGraph := do
  let bin := g.msToBin timestamp
  if eventType = ascii "+" then
    return { g with
      arrivals := addTo g.arrivals bin numBits
      arrivalSum := g.arrivalSum + numBits }
  else if eventType = ascii "#" then
    return { g with
      capacity := addTo g.capacity bin numBits
      capacitySum := g.capacitySum + numBits }
  else if eventType = ascii "-" then
    match delay with
    | none => throw (ascii "Departure format: timestamp - num_bytes delay")
    | some delay =>
        if numify delay < 0 then
          throw (ascii "Invalid delay: " ++ delay)
        else if (timestamp : ℚ) - numify delay < 0 then
          throw (ascii "Invalid timestamp and delay: ts=" ++ ascii (toString timestamp)
            ++ ascii ", delay=" ++ delay)
        else
          let sent : ℚ := timestamp - numify delay
          return { g with
            departures := addTo g.departures bin numBits
            delays := g.delays ++ [numify delay]
            departureSum := g.departureSum + numBits
            signalDelay := fun ts =>
              if ts = sent then
                some (((g.signalDelay ts).map (min (numify delay))).getD (numify delay))
              else g.signalDelay ts }
  else throw (ascii "Unknown event type: " ++ eventType)

/-- The first and the last timestamp, after one more. -/
def noteTimestamp (timestamp : Int) (g : ThroughputGraph) : ThroughputGraph :=
  match g.lastTimestamp with
  | none => { g with firstTimestamp := some timestamp, lastTimestamp := some timestamp }
  | some last => { g with lastTimestamp := some (max timestamp last) }

/-- One turn of the main loop, for a line without its end. -/
def processLine (g : ThroughputGraph) (line : Bytes) : Except Bytes ThroughputGraph :=
  match baseTimestampOf line with
  | some base =>
      if g.baseTimestamp.isSome then throw (ascii "base timestamp multiply defined")
      else return { g with baseTimestamp := some base }
  | none =>
      if (ascii "#").isPrefixOf line then return g
      else
        match splitSpaces line with
        | timestamp :: eventType :: numBytes :: rest => do
            if !isDigits timestamp then
              throw (ascii "Invalid timestamp: " ++ timestamp)
            if !isDigits numBytes then
              throw (ascii "Invalid byte count: " ++ numBytes)
            match g.baseTimestamp with
            | none => throw (ascii "logfile is missing base timestamp")
            | some base =>
                -- correct for startup time variation
                let timestamp : Int := digitsValue 10 timestamp - base
                (g.noteTimestamp timestamp).processEvent timestamp eventType
                  (digitsValue 10 numBytes * 8) rest.head?
        | _ => throw (ascii "Format: timestamp event_type num_bytes [delay]")

/-- The main loop. -/
def processLog (msPerBin : {n : Nat // 0 < n}) (text : Bytes) : Except Bytes ThroughputGraph :=
  (lines text).foldlM processLine (.initial msPerBin)

end ThroughputGraph

/-! ## Fields that are written are read -/

/-- A field that is not empty and has no white space. -/
def IsField (f : Bytes) : Prop := f ≠ [] ∧ ∀ c ∈ f, isSpace c = false

/-- Fields with a space between them. -/
def joinSpaces : List Bytes → Bytes
  | [] => []
  | [f] => f
  | f :: fs => f ++ 32 :: joinSpaces fs

theorem columns_join : ∀ {fs : List Bytes}, (∀ f ∈ fs, IsField f) → columns (joinSpaces fs) = fs
  | [], _ => columns_nil
  | [f], h => by
      have hf := h f (by simp)
      have hcolumns : columns (f ++ []) = f :: columns [] := columns_field hf.1 hf.2 (by simp)
      rwa [List.append_nil, columns_nil] at hcolumns
  | f :: f' :: fs, h => by
      have hf := h f (by simp)
      rw [joinSpaces, columns_field hf.1 hf.2 (by simp [isSpace]), columns_cons_space (by decide),
        columns_join fun g hg => h g (List.mem_cons_of_mem _ hg)]
      simp

theorem head_join {f : Bytes} (fs : List Bytes) (hf : IsField f) :
    (joinSpaces (f :: fs)).head? = f.head? := by
  obtain ⟨c, t, rfl⟩ := List.exists_cons_of_ne_nil hf.1
  cases fs <;> simp [joinSpaces]

theorem getLast_join : ∀ {fs : List Bytes}, (∀ f ∈ fs, IsField f) →
    ∀ c ∈ (joinSpaces fs).getLast?, isSpace c = false
  | [], _, c, hc => by simp [joinSpaces] at hc
  | [f], h, c, hc => (h f (by simp)).2 c (List.mem_of_getLast? hc)
  | f :: f' :: fs, h, c, hc => by
      have hne : joinSpaces (f' :: fs) ≠ [] := by
        intro hnil
        have hhead := head_join fs (h f' (by simp))
        rw [hnil] at hhead
        exact (h f' (by simp)).1 (List.head?_eq_none_iff.mp hhead.symm)
      refine getLast_join (fun g hg => h g (List.mem_cons_of_mem _ hg)) c ?_
      rw [joinSpaces, List.getLast?_append_of_ne_nil _ (by simp), List.getLast?_cons_of_ne_nil hne] at hc
      · exact hc
      · simp

theorem splitSpaces_join {f : Bytes} {fs : List Bytes} (h : ∀ g ∈ f :: fs, IsField g) :
    splitSpaces (joinSpaces (f :: fs)) = f :: fs := by
  have hf := h f (by simp)
  obtain ⟨c, t, hct⟩ := List.exists_cons_of_ne_nil hf.1
  have hhead : (joinSpaces (f :: fs)).head? = some c := by
    rw [head_join fs hf, hct]
    rfl
  have hc : isSpace c = false := hf.2 c (by simp [hct])
  have hne : joinSpaces (f :: fs) ≠ [] := fun hnil => by simp [hnil] at hhead
  have hd := List.getLast?_eq_some_getLast hne
  have hspace := getLast_join h _ hd
  simp [splitSpaces, hne, hhead, hc, hd, hspace, columns_join h]

theorem isField_of_isNumber {s : Bytes} (h : IsNumber 10 s) : IsField s :=
  ⟨h.nonempty, fun c hc => (isDigitOf_facts (by omega) (h.digits c hc)).1⟩

theorem isDigits_of_isNumber {s : Bytes} (h : IsNumber 10 s) : isDigits s = true := by
  have hall : s.all (isDigitOf 10) = true := List.all_eq_true.mpr h.digits
  simp [isDigits, h.nonempty, hall]

theorem numify_of_isNumber {s : Bytes} (h : IsNumber 10 s) : numify s = digitsValue 10 s := by
  obtain ⟨c, t, rfl⟩ := List.exists_cons_of_ne_nil h.nonempty
  obtain ⟨hspace, hminus, hplus, -⟩ := isDigitOf_facts (by omega) (h.digits c (by simp))
  have htake : (c :: t).takeWhile (isDigitOf 10) = c :: t := List.takeWhile_eq_self_iff.mpr h.digits
  have hdrop : (c :: t).dropWhile (isDigitOf 10) = [] := List.dropWhile_eq_nil_iff.mpr h.digits
  have hstart : (c :: t).dropWhile isSpace = c :: t := by simp [hspace]
  simp only [numify, hstart]
  split
  · next heq => exact absurd (List.cons.inj heq).1 hminus
  · next heq => exact absurd (List.cons.inj heq).1 hplus
  · simp [htake, hdrop, digitsValue]

namespace ThroughputGraph

variable {g : ThroughputGraph} {base : Nat}

theorem not_comment {t : Bytes} (fs : List Bytes) (ht : IsNumber 10 t) :
    baseTimestampOf (joinSpaces (t :: fs)) = none ∧
      (ascii "#").isPrefixOf (joinSpaces (t :: fs)) = false := by
  obtain ⟨c, u, hcu⟩ := List.exists_cons_of_ne_nil ht.nonempty
  have hhead : (joinSpaces (t :: fs)).head? = some c := by
    rw [head_join fs (isField_of_isNumber ht), hcu]
    rfl
  obtain ⟨v, hv⟩ := List.head?_eq_some_iff.mp hhead
  have hne : (35 : UInt8) ≠ c := by
    have hdigit := ht.digits c (by simp [hcu])
    rintro rfl
    exact absurd hdigit (by decide)
  rw [hv]
  have hbase : ascii "# base timestamp: " = 35 :: ascii " base timestamp: " := rfl
  have hhash : ascii "#" = [35] := rfl
  constructor
  · simp [baseTimestampOf, hbase, hne]
  · simp [hhash, List.isPrefixOf, hne]

theorem processLine_join {t e n : Bytes} {rest : List Bytes} (hg : g.baseTimestamp = some base)
    (ht : IsNumber 10 t) (he : IsField e) (hn : IsNumber 10 n) (hrest : ∀ f ∈ rest, IsField f) :
    processLine g (joinSpaces (t :: e :: n :: rest))
      = (g.noteTimestamp (digitsValue 10 t - base)).processEvent (digitsValue 10 t - base) e
          (digitsValue 10 n * 8) rest.head? := by
  have hfields : ∀ f ∈ t :: e :: n :: rest, IsField f := by
    intro f hf
    simp only [List.mem_cons] at hf
    rcases hf with rfl | rfl | rfl | hf
    · exact isField_of_isNumber ht
    · exact he
    · exact isField_of_isNumber hn
    · exact hrest f hf
  obtain ⟨hbase, hhash⟩ := not_comment (e :: n :: rest) ht
  simp [processLine, hbase, hhash, splitSpaces_join hfields, isDigits_of_isNumber ht,
    isDigits_of_isNumber hn, hg]

end ThroughputGraph

/-! ## The lines of the log -/

namespace Record

/-- A departure is of a packet that has arrived by then, and not before the
base timestamp. -/
def Timely (base : Nat) : Record → Prop
  | .departure time packet => base ≤ packet.arrivalTime ∧ packet.arrivalTime ≤ time
  | _ => True

def isDrop : Record → Bool
  | .drop .. => true
  | _ => false

/-- The fields of the line. -/
def fields : Record → List Bytes
  | .arrival time size => [decimal time, ascii "+", decimal size]
  | .drop time packets bytes => [decimal time, ascii "d", decimal packets, decimal bytes]
  | .opportunity time size => [decimal time, ascii "#", decimal size]
  | .departure time packet =>
      [decimal time, ascii "-", decimal packet.size, decimal (sub64 time packet.arrivalTime)]

theorem logLine_eq (r : Record) : logLine r = joinSpaces r.fields := by
  cases r <;> simp [logLine, fields, joinSpaces, ascii]

theorem isField_decimal (n : Nat) : IsField (decimal n) := isField_of_isNumber (isNumber_decimal n)

theorem isField_event {e : Bytes} (he : e ∈ [ascii "+", ascii "-", ascii "#", ascii "d"]) :
    IsField e := by
  simp only [List.mem_cons, List.not_mem_nil, or_false] at he
  rcases he with rfl | rfl | rfl | rfl <;> exact ⟨by decide, by decide +kernel⟩

theorem isField_fields (r : Record) : ∀ f ∈ r.fields, IsField f := by
  cases r with
  | arrival | opportunity =>
      simp only [fields, List.forall_mem_cons]
      exact ⟨isField_decimal _, isField_event (by simp), isField_decimal _, by simp⟩
  | drop | departure =>
      simp only [fields, List.forall_mem_cons]
      exact ⟨isField_decimal _, isField_event (by simp), isField_decimal _, isField_decimal _, by simp⟩

end Record

namespace ThroughputGraph

variable {g : ThroughputGraph} {base : Nat} {r : Record}

theorem noteTimestamp_base (timestamp : Int) (g : ThroughputGraph) :
    (g.noteTimestamp timestamp).baseTimestamp = g.baseTimestamp := by
  unfold noteTimestamp
  split <;> rfl

theorem processEvent_departure (timestamp : Int) {delay : Bytes} (numBits : Nat)
    (g : ThroughputGraph) (h : 0 ≤ numify delay) (h' : numify delay ≤ timestamp) :
    ∃ g', g.processEvent timestamp (ascii "-") numBits (some delay) = .ok g' ∧
      g'.baseTimestamp = g.baseTimestamp := by
  have hsent : ¬ ((timestamp : ℚ) - numify delay < 0) := by
    rw [sub_neg]
    exact not_lt.mpr h'
  unfold processEvent
  rw [if_neg (by decide), if_neg (by decide), if_pos rfl]
  simp only [if_neg (not_lt.mpr h), if_neg hsent]
  exact ⟨_, rfl, rfl⟩

/-- **A line is used** if it is not for a drop. -/
theorem processLine_logLine (hg : g.baseTimestamp = some base) (hr : r.Timely base)
    (hdrop : r.isDrop = false) :
    ∃ g', processLine g (logLine r) = .ok g' ∧ g'.baseTimestamp = some base := by
  rw [r.logLine_eq]
  cases r with
  | drop => cases hdrop
  | arrival time size =>
      rw [Record.fields, processLine_join hg (isNumber_decimal _) (Record.isField_event (by simp))
        (isNumber_decimal _) (by simp)]
      exact ⟨_, rfl, (noteTimestamp_base _ _).trans hg⟩
  | opportunity time size =>
      rw [Record.fields, processLine_join hg (isNumber_decimal _) (Record.isField_event (by simp))
        (isNumber_decimal _) (by simp)]
      exact ⟨_, rfl, (noteTimestamp_base _ _).trans hg⟩
  | departure time packet =>
      obtain ⟨hbase, harrived⟩ := hr
      rw [Record.fields, processLine_join hg (isNumber_decimal _) (Record.isField_event (by simp))
        (isNumber_decimal _) (by simpa using Record.isField_decimal _)]
      have hdelay : numify (decimal (sub64 time packet.arrivalTime))
          = (time : ℚ) - packet.arrivalTime := by
        rw [numify_of_isNumber (isNumber_decimal _), digitsValue_decimal, sub64_of_le harrived,
          Nat.cast_sub harrived]
      have harrived' : (packet.arrivalTime : ℚ) ≤ time := Nat.cast_le.mpr harrived
      have hbase' : (base : ℚ) ≤ packet.arrivalTime := Nat.cast_le.mpr hbase
      rw [digitsValue_decimal]
      obtain ⟨g', hg', hbaseg⟩ := processEvent_departure ((time : Int) - base)
        (digitsValue 10 (decimal packet.size) * 8) (g.noteTimestamp (time - base))
        (hdelay ▸ sub_nonneg.mpr harrived') (by
          rw [hdelay]
          push_cast
          exact sub_le_sub_left hbase' _)
      exact ⟨g', hg', hbaseg.trans ((noteTimestamp_base _ _).trans hg)⟩

theorem processLine_drop (hg : g.baseTimestamp = some base) (hdrop : r.isDrop = true) :
    processLine g (logLine r) = .error (ascii "Unknown event type: d") := by
  rw [r.logLine_eq]
  cases r with
  | drop time packets bytes =>
      rw [Record.fields, processLine_join hg (isNumber_decimal _) (Record.isField_event (by simp))
        (isNumber_decimal _) (by simpa using Record.isField_decimal _)]
      rfl
  | arrival | opportunity | departure => cases hdrop

/-- The base timestamp is read back. -/
theorem baseTimestampOf_baseLine (base : Nat) : baseTimestampOf (baseLine base) = some base := by
  have hdigits : (decimal base).takeWhile (isDigitOf 10) = decimal base :=
    List.takeWhile_eq_self_iff.mpr (isNumber_decimal base).digits
  have hne : decimal base ≠ [] := (isNumber_decimal base).nonempty
  rw [baseTimestampOf, if_pos (by simp [baseLine])]
  simp [baseLine, hdigits, hne, digitsValue_decimal]

theorem processLine_base {base : Nat} (hg : g.baseTimestamp = none) :
    processLine g (baseLine base) = .ok { g with baseTimestamp := some base } := by
  simp [processLine, baseTimestampOf_baseLine, hg]

/-- The lines of the log are used up to the first one for a drop. -/
theorem foldlM_logLine : ∀ {rs : List Record} {g : ThroughputGraph}, g.baseTimestamp = some base →
    (∀ r ∈ rs, r.Timely base) →
    ((∃ g', (rs.map logLine).foldlM processLine g = .ok g') ↔ ∀ r ∈ rs, r.isDrop = false)
  | [], g, _, _ => iff_of_true ⟨g, rfl⟩ (by simp)
  | r :: rs, g, hg, h => by
      simp only [List.map_cons, List.foldlM_cons, List.forall_mem_cons] at h ⊢
      cases hdrop : r.isDrop with
      | true => simp [processLine_drop hg hdrop]
      | false =>
          obtain ⟨g', hg', hbase⟩ := processLine_logLine hg h.1 hdrop
          rw [hg', ok_bind]
          simpa using foldlM_logLine hbase h.2

end ThroughputGraph

/-- The lines of a text that is written line by line. -/
theorem lines_flatMap : ∀ {ls : List Bytes}, (∀ l ∈ ls, 10 ∉ l) → lines (ls.flatMap (· ++ [10])) = ls
  | [], _ => lines_nil
  | l :: ls, h => by
      rw [List.flatMap_cons, List.append_assoc, List.singleton_append, lines_cons (h l (by simp)),
        lines_flatMap fun l' hl => h l' (List.mem_cons_of_mem _ hl)]

theorem no_newline_join : ∀ {fs : List Bytes}, (∀ f ∈ fs, IsField f) → 10 ∉ joinSpaces fs
  | [], _ => by simp [joinSpaces]
  | [f], h => fun hmem => absurd ((h f (by simp)).2 10 hmem) (by decide)
  | f :: f' :: fs, h => by
      have hf : 10 ∉ f := fun hmem => absurd ((h f (by simp)).2 10 hmem) (by decide)
      have hrest := no_newline_join fun g hg => h g (List.mem_cons_of_mem f hg)
      rw [joinSpaces]
      · simp [hf, hrest]
      · simp

theorem lines_logText (base : Nat) (rs : List Record) :
    lines (logText base rs) = baseLine base :: rs.map logLine := by
  refine lines_flatMap fun l hl => ?_
  rcases List.mem_cons.mp hl with rfl | hl
  · have hdecimal : 10 ∉ decimal base := fun hmem =>
      absurd ((isNumber_decimal base).digits 10 hmem) (by decide)
    simp [baseLine, hdecimal, ascii]
  · obtain ⟨r, -, rfl⟩ := List.mem_map.mp hl
    rw [r.logLine_eq]
    exact no_newline_join r.isField_fields

/-- **The script and the log.** It gets to the end of the lines exactly when
none of them is for a drop. -/
theorem processLog_logText {base : Nat} {rs : List Record} (msPerBin : {n : Nat // 0 < n})
    (h : ∀ r ∈ rs, r.Timely base) :
    (∃ g, ThroughputGraph.processLog msPerBin (logText base rs) = .ok g) ↔
      ∀ r ∈ rs, r.isDrop = false := by
  rw [ThroughputGraph.processLog, lines_logText, List.foldlM_cons,
    ThroughputGraph.processLine_base rfl, ok_bind]
  exact ThroughputGraph.foldlM_logLine rfl h

end Mahimahi
