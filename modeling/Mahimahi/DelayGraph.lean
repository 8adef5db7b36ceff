import Mathlib.Algebra.Order.Floor.Ring
import Mathlib.Data.List.Sort
import Mathlib.Data.Rat.Floor
import Mahimahi.LeastDelay
import Mahimahi.LinkOrder

/-!
# The delay graph

`mm-delay-graph` reads a log of the link and draws, for each millisecond, how long a
message that is made then needs at least to get to the receiver. For the arrival time of
each packet that has departed it has the least delay of the packets that arrived then;
for the milliseconds between, filled in backwards, one more than a millisecond later.

That a sampled delay is not lowered by a later packet rests on the link: packets depart in
the order in which they have arrived, whatever the discipline (`LoggedLink.ArrivalOrder`). So
in the log no packet overtakes another, as long as the departure times do not go back,
and then what is drawn is the least delay (`signal_delay_is_least`).
-/

namespace Mahimahi

/-! ## mm-delay-graph -/

/-- `%signal_delay`: a hash with numbers as keys. -/
abbrev SignalDelay := AList fun _ : ℚ => ℚ

/-- The variables of the script. A timestamp is counted from the base timestamp. -/
structure DelayGraph where
  firstTimestamp : Option Int
  lastTimestamp : Option Int
  baseTimestamp : Option Nat
  delays : List ℚ
  signalDelay : SignalDelay
  /-- The points of the plot: when a packet has arrived, and its delay. -/
  points : List (ℚ × ℚ)

namespace DelayGraph

def initial : DelayGraph := ⟨none, none, none, [], ∅, []⟩

/-- The first and the last timestamp, after one more. -/
def noteTimestamp (timestamp : Int) (g : DelayGraph) : DelayGraph :=
  match g.lastTimestamp with
  | none => { g with firstTimestamp := some timestamp, lastTimestamp := some timestamp }
  | some last => { g with lastTimestamp := some (max timestamp last) }

/-- The event of a line, at its timestamp. -/
def processEvent (timestamp : Int) (eventType : Bytes) (delay : Option Bytes) (g : DelayGraph) :
    Except Fault DelayGraph :=
  if eventType = ascii "-" then
    match delay with
    | none => .error (.runtimeError "Departure format: timestamp - num_bytes delay")
    | some delay =>
        let sent : ℚ := timestamp - numify delay
        .ok { g with
          delays := g.delays ++ [numify delay]
          signalDelay := g.signalDelay.insert sent (leastWith (numify delay) (g.signalDelay.lookup sent))
          points := g.points ++ [(sent, numify delay)] }
  else .ok g

/-- One turn of the main loop, for a line without its end. -/
def processLine (g : DelayGraph) (line : Bytes) : Except Fault DelayGraph :=
  match baseTimestampOf line with
  | some base =>
      if g.baseTimestamp.isSome then .error (.runtimeError "base timestamp multiply defined")
      else .ok { g with baseTimestamp := some base }
  | none =>
      if (ascii "#").isPrefixOf line then .ok g
      else
        match splitSpaces line with
        | timestamp :: eventType :: numBytes :: rest => do
            if !isDigits timestamp then
              throw (.runtimeErrorWith "Invalid timestamp: " timestamp)
            if !isDigits numBytes then
              throw (.runtimeErrorWith "Invalid byte count: " numBytes)
            match g.baseTimestamp with
            | none => throw (.runtimeError "logfile is missing base timestamp")
            | some base =>
                -- correct for startup time variation
                let timestamp : Int := digitsValue 10 timestamp - base
                (g.noteTimestamp timestamp).processEvent timestamp eventType rest.head?
        | _ => .error (.runtimeError "Format: timestamp event_type num_bytes [delay]")

/-- The main loop. -/
def processLog (text : Bytes) : Except Fault DelayGraph := (lines text).foldlM processLine initial

/-- One turn of the loop over the milliseconds. -/
def fillAt (ts : ℚ) (signalDelay : SignalDelay) : SignalDelay :=
  match signalDelay.lookup ts with
  | some _ => signalDelay
  | none => signalDelay.insert ts ((signalDelay.lookup (ts + 1)).getD 0 + 1)

/-- The loop, from the last sample down to the first. -/
def fillBackward (first last : ℚ) (signalDelay : SignalDelay) :
    Except Fault SignalDelay := do
  let (_, signalDelay) ← loop .diverges
    (whileDo (fun s : ℚ × SignalDelay => decide (first ≤ s.1)) fun s => .ok (s.1 - 1, fillAt s.1 s.2))
    (⌊last - first + 1⌋.toNat + 1) (last, signalDelay)
  return signalDelay

/-- The element of a sorted list that so many per cent of it are in front of. -/
def percentile (percent : Nat) (sorted : List ℚ) : Option ℚ := sorted[percent * sorted.length / 100]?

/-- What is drawn and printed. -/
structure Statistics where
  pp95 : Option ℚ
  pp50 : Option ℚ
  /-- The first and the last of the samples, sorted. -/
  first : ℚ
  last : ℚ
  signalDelay : SignalDelay
  pp95s : Option ℚ

/-- The part of the script after the main loop. -/
def calculateStatistics (g : DelayGraph) : Except Fault Statistics := do
  if g.delays.isEmpty then
    throw (.runtimeError "Must have at least one departure event")
  let delays := g.delays.mergeSort
  let signalDelaySamples := g.signalDelay.keys.mergeSort
  let first := signalDelaySamples.head?.getD 0
  let last := signalDelaySamples.getLast?.getD 0
  let signalDelay ← fillBackward first last g.signalDelay
  let signalDelays := (signalDelay.entries.map Sigma.snd).mergeSort
  return {
    pp95 := percentile 95 delays
    pp50 := percentile 50 delays
    first := first
    last := last
    signalDelay := signalDelay
    pp95s := percentile 95 signalDelays }

/-! ## Filling backwards -/

section

variable {trips : List (ℚ × ℚ)} {signalDelay filled : SignalDelay} {first last n : Int}

/-- Every trip starts at a whole millisecond. -/
def WholeStarts (trips : List (ℚ × ℚ)) : Prop := ∀ p ∈ trips, ∃ n : Int, p.1 = n

/-- A table that is filled behind the millisecond `n`. -/
structure FilledTo (trips : List (ℚ × ℚ)) (signalDelay : SignalDelay) (last n : Int)
    (filled : SignalDelay) : Prop where
  le_last : n ≤ last
  right : ∀ t : Int, n < t → t ≤ last →
    ∃ d, filled.lookup (t : ℚ) = some d ∧ IsLeast (delaysFrom trips t) d
  same : ∀ t : Int, t ≤ n → filled.lookup (t : ℚ) = signalDelay.lookup (t : ℚ)

theorem FilledTo.fillAt (hsamples : Samples trips signalDelay) (horder : NoOvertaking trips)
    (hwhole : WholeStarts trips) (hlast : signalDelay.lookup (last : ℚ) ≠ none)
    (h : FilledTo trips signalDelay last n filled) :
    FilledTo trips signalDelay last (n - 1) (DelayGraph.fillAt n filled) := by
  have hhere := h.same n (le_refl n)
  cases hlookup : signalDelay.lookup (n : ℚ) with
  | some d =>
      have hfill : DelayGraph.fillAt n filled = filled := by
        rw [DelayGraph.fillAt, hhere, hlookup]
      rw [hfill]
      refine ⟨by have := h.le_last; omega, fun t hlt hle => ?_, fun t ht => h.same t (by omega)⟩
      by_cases hn : t = n
      · subst hn
        exact ⟨d, hhere.trans hlookup, isLeast_of_sample horder (hsamples.least _ d hlookup)⟩
      · exact h.right t (by omega) hle
  | none =>
      have hne : n ≠ last := by
        rintro rfl
        exact hlast hlookup
      obtain ⟨d, hd, hleast⟩ := h.right (n + 1) (by omega) (by have := h.le_last; omega)
      rw [Int.cast_add, Int.cast_one] at hd hleast
      have hfill : DelayGraph.fillAt n filled = filled.insert (n : ℚ) (d + 1) := by
        rw [DelayGraph.fillAt, hhere, hlookup, hd]
        rfl
      rw [hfill]
      refine ⟨by have := h.le_last; omega, fun t hlt hle => ?_, fun t ht => ?_⟩
      · by_cases hn : t = n
        · subst hn
          refine ⟨d + 1, AList.lookup_insert _, isLeast_of_next zero_le_one ?_ hleast⟩
          intro p hp hlate
          obtain ⟨m, hm⟩ := hwhole p hp
          have hstart := hsamples.none _ hlookup p hp
          rw [hm] at hlate hstart ⊢
          have hle : t ≤ m := Int.cast_le.mp hlate
          have hne : m ≠ t := fun heq => hstart (by rw [heq])
          exact_mod_cast (show t + 1 ≤ m by omega)
        · rw [AList.lookup_insert_ne (by exact_mod_cast hn)]
          exact h.right t (by omega) hle
      · rw [AList.lookup_insert_ne (by exact_mod_cast (show t ≠ n by omega))]
        exact h.same t (by omega)

theorem floor_turns (n first : Int) : ⌊(n : ℚ) - first + 1⌋ = n - first + 1 := by
  rw [show (n : ℚ) - first + 1 = ((n - first + 1 : Int) : ℚ) by push_cast; ring, Int.floor_intCast]

/-- **The whole loop** ends with the least delays. -/
theorem fillBackward_least (first : Int) (hsamples : Samples trips signalDelay)
    (horder : NoOvertaking trips) (hwhole : WholeStarts trips) (hlast : signalDelay.lookup (last : ℚ) ≠ none) :
    ∃ filled, fillBackward first last signalDelay = .ok filled ∧
      ∀ t : Int, first ≤ t → t ≤ last →
        ∃ d, filled.lookup (t : ℚ) = some d ∧ IsLeast (delaysFrom trips t) d := by
  have hloop : ∃ r : ℚ × SignalDelay, loop Fault.diverges
      (whileDo (fun s : ℚ × SignalDelay => decide ((first : ℚ) ≤ s.1)) fun s =>
        .ok (s.1 - 1, fillAt s.1 s.2))
      (⌊(last : ℚ) - first + 1⌋.toNat + 1) ((last : ℚ), signalDelay) = .ok r ∧
      ∃ n < first, FilledTo trips signalDelay last n r.2 := by
    refine loop_total Fault.diverges
      (I := fun s : ℚ × SignalDelay => ∃ n : Int, s.1 = n ∧ FilledTo trips signalDelay last n s.2)
      (μ := fun s : ℚ × SignalDelay => ⌊s.1 - first + 1⌋.toNat) ?_
      ⟨last, rfl, le_refl _, fun t hlt hle => absurd hlt (by omega), fun _ _ => rfl⟩ (Nat.lt_succ_self _)
    rintro ⟨-, filled⟩ ⟨n, rfl, hfilled⟩
    by_cases hagain : (first : ℚ) ≤ n
    · refine .inl ⟨_, whileDo_again.mpr ⟨decide_eq_true hagain, rfl⟩,
        ⟨n - 1, by push_cast; rfl, hfilled.fillAt hsamples horder hwhole hlast⟩, ?_⟩
      have hle : first ≤ n := Int.cast_le.mp hagain
      have hnext := floor_turns (n - 1) first
      push_cast at hnext
      show ⌊(n : ℚ) - 1 - first + 1⌋.toNat < ⌊(n : ℚ) - first + 1⌋.toNat
      rw [hnext, floor_turns]
      omega
    · refine .inr ⟨_, whileDo_leave.mpr ⟨decide_eq_false hagain, rfl⟩, n, ?_, hfilled⟩
      exact Int.cast_lt.mp (lt_of_not_ge hagain)
  obtain ⟨⟨ts, filled⟩, hfilled, n, hn, h⟩ := hloop
  refine ⟨filled, by rw [fillBackward, hfilled]; rfl, fun t hfirst hle => h.right t (by omega) hle⟩

end

/-! ## Reading the log -/

end DelayGraph

/-- The trip of a packet that has departed: the arrival and the departure, counted from the
base timestamp. -/
def Record.trips (base : Nat) : Record → List (ℚ × ℚ)
  | .departure time packet => [((packet.arrivalTime : ℚ) - base, (time : ℚ) - base)]
  | _ => []

namespace DelayGraph

variable {g : DelayGraph} {base : Nat} {trips : List (ℚ × ℚ)} {r : Record}

/-- What the main loop has got from the log. -/
structure Reads (base : Nat) (trips : List (ℚ × ℚ)) (g : DelayGraph) : Prop where
  baseTimestamp : g.baseTimestamp = some base
  delays : g.delays = trips.map fun p => p.2 - p.1
  samples : Samples trips g.signalDelay

theorem Reads.noteTimestamp (h : Reads base trips g) (timestamp : Int) :
    Reads base trips (g.noteTimestamp timestamp) := by
  unfold DelayGraph.noteTimestamp
  split
  · exact ⟨h.baseTimestamp, h.delays, h.samples⟩
  · exact ⟨h.baseTimestamp, h.delays, h.samples⟩

theorem processLine_join {t e n : Bytes} {rest : List Bytes} (hg : g.baseTimestamp = some base)
    (ht : IsNumber 10 t) (he : IsField e) (hn : IsNumber 10 n) (hrest : ∀ f ∈ rest, IsField f) :
    processLine g (joinSpaces (t :: e :: n :: rest))
      = (g.noteTimestamp (digitsValue 10 t - base)).processEvent (digitsValue 10 t - base) e
          rest.head? := by
  have hfields : ∀ f ∈ t :: e :: n :: rest, IsField f := by
    simp only [List.forall_mem_cons]
    exact ⟨isField_of_isNumber ht, he, isField_of_isNumber hn, hrest⟩
  obtain ⟨hbase, hhash⟩ := ThroughputGraph.not_comment (e :: n :: rest) ht
  simp [processLine, hbase, hhash, splitSpaces_join hfields, isDigits_of_isNumber ht,
    isDigits_of_isNumber hn, hg]

theorem processEvent_other {timestamp : Int} {eventType : Bytes} {delay : Option Bytes}
    (h : eventType ≠ ascii "-") : g.processEvent timestamp eventType delay = .ok g := if_neg h

theorem Reads.departure {timestamp : Int} {delay : Bytes} {start stop : ℚ} (h : Reads base trips g)
    (hdelay : numify delay = stop - start) (hstop : (timestamp : ℚ) = stop) :
    ∃ g', g.processEvent timestamp (ascii "-") (some delay) = .ok g' ∧
      Reads base (trips ++ [(start, stop)]) g' := by
  obtain rfl : start = timestamp - numify delay := by rw [hdelay, hstop, sub_sub_cancel]
  subst hstop
  have hinsert := h.samples.insert (timestamp - numify delay) (timestamp : ℚ)
  rw [← hdelay] at hinsert
  rw [processEvent, if_pos rfl]
  refine ⟨_, rfl, h.baseTimestamp, ?_, hinsert⟩
  simp only [h.delays, ← hdelay, List.map_append, List.map_singleton]

theorem Reads.line (h : Reads base trips g) (hr : r.Timely base) :
    ∃ g', processLine g (logLine r) = .ok g' ∧ Reads base (trips ++ r.trips base) g' := by
  rw [r.logLine_eq]
  cases r with
  | arrival time size | opportunity time size =>
      rw [Record.fields, processLine_join h.baseTimestamp (isNumber_decimal _)
        (Record.isField_event (by simp)) (isNumber_decimal _) (by simp), processEvent_other (by decide)]
      exact ⟨_, rfl, by simpa [Record.trips] using h.noteTimestamp _⟩
  | drop time packets bytes =>
      rw [Record.fields, processLine_join h.baseTimestamp (isNumber_decimal _)
        (Record.isField_event (by simp)) (isNumber_decimal _)
        (by simpa using Record.isField_decimal _), processEvent_other (by decide)]
      exact ⟨_, rfl, by simpa [Record.trips] using h.noteTimestamp _⟩
  | departure time packet =>
      obtain ⟨-, harrived⟩ := hr
      rw [Record.fields, processLine_join h.baseTimestamp (isNumber_decimal _)
        (Record.isField_event (by simp)) (isNumber_decimal _)
        (by simpa using Record.isField_decimal _), digitsValue_decimal]
      have hdelay : numify (decimal (sub64 time packet.arrivalTime))
          = (time : ℚ) - base - (packet.arrivalTime - base) := by
        rw [numify_of_isNumber (isNumber_decimal _), digitsValue_decimal, sub64_of_le harrived,
          Nat.cast_sub harrived, sub_sub_sub_cancel_right]
      exact (h.noteTimestamp _).departure hdelay (by push_cast; rfl)

/-- **The main loop** gets to the end of the log, with the trips of all departures. -/
theorem Reads.lines : ∀ {rs : List Record} {trips : List (ℚ × ℚ)} {g : DelayGraph},
    Reads base trips g → (∀ r ∈ rs, r.Timely base) →
    ∃ g', (rs.map logLine).foldlM processLine g = .ok g' ∧
      Reads base (trips ++ rs.flatMap (Record.trips base)) g'
  | [], trips, g, h, _ => ⟨g, rfl, by simpa using h⟩
  | r :: rs, trips, g, h, hr => by
      rw [List.forall_mem_cons] at hr
      obtain ⟨g₁, hline, h₁⟩ := h.line hr.1
      obtain ⟨g', hlines, h'⟩ := h₁.lines hr.2
      refine ⟨g', ?_, by simpa using h'⟩
      rw [List.map_cons, List.foldlM_cons, hline]
      exact hlines

theorem processLog_logText {rs : List Record} (hr : ∀ r ∈ rs, r.Timely base) :
    ∃ g, processLog (logText base rs) = .ok g ∧ Reads base (rs.flatMap (Record.trips base)) g := by
  have hbase : processLine initial (baseLine base) = .ok { initial with baseTimestamp := some base } := by
    simp [processLine, ThroughputGraph.baseTimestampOf_baseLine, initial]
  have hreads : Reads base [] { initial with baseTimestamp := some base } :=
    ⟨rfl, rfl, samples_empty⟩
  obtain ⟨g, hlines, h⟩ := hreads.lines hr
  refine ⟨g, ?_, h⟩
  rw [processLog, lines_logText, List.foldlM_cons, hbase]
  exact hlines

/-! ## The samples, sorted -/

theorem isLeast_head {l : List ℚ} (hne : l ≠ []) : IsLeast {a | a ∈ l} (l.mergeSort.head?.getD 0) := by
  have hsorted := List.pairwise_mergeSort' (· ≤ ·) l
  have hmem : ∀ a, a ∈ l.mergeSort ↔ a ∈ l := fun a => List.mem_mergeSort
  cases hl : l.mergeSort with
  | nil =>
      obtain ⟨a, ha⟩ := List.exists_mem_of_ne_nil l hne
      rw [← hmem, hl] at ha
      cases ha
  | cons a rest =>
      rw [hl] at hsorted hmem
      refine ⟨(hmem a).mp List.mem_cons_self, fun b hb => ?_⟩
      rcases List.mem_cons.mp ((hmem b).mpr hb) with rfl | hb
      · exact le_refl _
      · exact List.rel_of_pairwise_cons hsorted hb

theorem isGreatest_last {l : List ℚ} (hne : l ≠ []) :
    IsGreatest {a | a ∈ l} (l.mergeSort.getLast?.getD 0) := by
  have hsorted := List.pairwise_mergeSort' (· ≤ ·) l
  have hmem : ∀ a, a ∈ l.mergeSort ↔ a ∈ l := fun a => List.mem_mergeSort
  rcases List.eq_nil_or_concat l.mergeSort with hl | ⟨init, a, hl⟩
  · obtain ⟨a, ha⟩ := List.exists_mem_of_ne_nil l hne
    rw [← hmem, hl] at ha
    cases ha
  · rw [List.concat_eq_append] at hl
    rw [hl] at hsorted hmem
    rw [hl, List.getLast?_concat, Option.getD_some]
    refine ⟨(hmem a).mp (by simp), fun b hb => ?_⟩
    rcases List.mem_append.mp ((hmem b).mpr hb) with hb | hb
    · exact (List.pairwise_append.mp hsorted).2.2 b hb a List.mem_cons_self
    · exact (List.mem_singleton.mp hb).le

/-- **The statistics**, for the trips that the main loop has got. -/
theorem Reads.statistics (h : Reads base trips g) (hne : trips ≠ []) (horder : NoOvertaking trips)
    (hwhole : WholeStarts trips) :
    ∃ (stats : Statistics) (first last : Int), g.calculateStatistics = .ok stats ∧
      stats.first = first ∧ stats.last = last ∧
      IsLeast {a | ∃ p ∈ trips, p.1 = a} stats.first ∧
      IsGreatest {a | ∃ p ∈ trips, p.1 = a} stats.last ∧
      ∀ t : Int, first ≤ t → t ≤ last →
        ∃ d, stats.signalDelay.lookup (t : ℚ) = some d ∧ IsLeast (delaysFrom trips t) d := by
  have hkeys : {a | a ∈ g.signalDelay.keys} = {a | ∃ p ∈ trips, p.1 = a} := by
    ext a
    exact h.samples.mem_keys
  obtain ⟨p, hp⟩ := List.exists_mem_of_ne_nil trips hne
  have hnil : g.signalDelay.keys ≠ [] := List.ne_nil_of_mem (h.samples.mem_keys.mpr ⟨p, hp, rfl⟩)
  have hfirst := isLeast_head hnil
  have hlast := isGreatest_last hnil
  rw [hkeys] at hfirst hlast
  obtain ⟨pf, hpf, hpf'⟩ := hfirst.1
  obtain ⟨pl, hpl, hpl'⟩ := hlast.1
  obtain ⟨first, hf⟩ := hwhole pf hpf
  obtain ⟨last, hl⟩ := hwhole pl hpl
  rw [hf] at hpf'
  rw [hl] at hpl'
  have hsample : g.signalDelay.lookup (last : ℚ) ≠ none := by
    intro hnone
    exact h.samples.none _ hnone pl hpl hl
  obtain ⟨filled, hfilled, hright⟩ := fillBackward_least first h.samples horder hwhole hsample
  have hdelays : g.delays.isEmpty = false := by simpa [h.delays] using hne
  let stats : Statistics := {
    pp95 := percentile 95 g.delays.mergeSort
    pp50 := percentile 50 g.delays.mergeSort
    first := g.signalDelay.keys.mergeSort.head?.getD 0
    last := g.signalDelay.keys.mergeSort.getLast?.getD 0
    signalDelay := filled
    pp95s := percentile 95 (filled.entries.map Sigma.snd).mergeSort }
  refine ⟨stats, first, last, ?_, hpf'.symm, hpl'.symm, hfirst, hlast, hright⟩
  rw [hpf', hpl'] at hfilled
  simp only [calculateStatistics, hdelays, Bool.false_eq_true, if_false, hfilled]
  rfl

end DelayGraph

/-! ## Runs of the link -/

namespace LoggedLink

variable {tr : Trace} {W : Arith} {s : LoggedLink tr W}

/-- The trips of the packets that have departed, counted from the base timestamp. -/
def trips (s : LoggedLink tr W) : List (ℚ × ℚ) :=
  s.link.departed.map fun d => ((d.2.arrivalTime : ℚ) - s.base, (d.1 : ℚ) - s.base)

/-- The curve that `mm-delay-graph` draws from the log: between the first and the last arrival
time of the packets that have departed, it has the least delay at every millisecond. -/
def CurveIsLeast (s : LoggedLink tr W) : Prop :=
  ∃ g stats, ∃ first last : Int, DelayGraph.processLog (logText s.base s.link.records) = .ok g ∧
    g.calculateStatistics = .ok stats ∧ stats.first = first ∧ stats.last = last ∧
    IsLeast {a | ∃ p ∈ s.trips, p.1 = a} stats.first ∧
    IsGreatest {a | ∃ p ∈ s.trips, p.1 = a} stats.last ∧
    ∀ t : Int, first ≤ t → t ≤ last →
      ∃ d, stats.signalDelay.lookup (t : ℚ) = some d ∧ IsLeast (delaysFrom s.trips t) d

theorem flatMap_trips (s : LoggedLink tr W) :
    s.link.records.flatMap (Record.trips s.base) = s.trips := by
  rw [trips, LinkQueue.departed]
  induction s.link.records with
  | nil => rfl
  | cons r rs ih =>
      rw [List.flatMap_cons, ih]
      cases r <;> rfl

theorem wholeStarts_trips (s : LoggedLink tr W) : DelayGraph.WholeStarts s.trips := by
  intro p hp
  obtain ⟨d, -, rfl⟩ := List.mem_map.mp hp
  exact ⟨(d.2.arrivalTime : Int) - s.base, by push_cast; rfl⟩

/-- **No packet overtakes another** in the log. -/
theorem ArrivalOrder.noOvertaking (h : s.ArrivalOrder) (hdeparts : s.DepartsInOrder) :
    NoOvertaking s.trips := by
  have harrivals : s.link.departed.Pairwise fun d d' => d.2.arrivalTime ≤ d'.2.arrivalTime := by
    have hsorted := h.sorted
    rw [LinkQueue.history, List.append_assoc, List.pairwise_append, List.pairwise_map] at hsorted
    exact hsorted.1
  have hdepartures : s.link.departed.Pairwise fun d d' => d.1 ≤ d'.1 := List.pairwise_map.mp hdeparts
  refine List.pairwise_map.mpr ((harrivals.and hdepartures).imp ?_)
  rintro d d' ⟨harrival, hdeparture⟩
  exact ⟨sub_le_sub_right (Nat.cast_le.mpr harrival) _, sub_le_sub_right (Nat.cast_le.mpr hdeparture) _⟩

/-- **The signal delay is the least delay.** For every run of the link, with any discipline:
as long as the departure times do not go back, the curve that is drawn from the log, after
each call, is the least delay at every millisecond between the first and the last sample. -/
theorem signal_delay_is_least (tr : Trace) (W : Arith) (t : QueueType) (now : Nat)
    (world : Nat → Env) (calls : List LinkCall) :
    Always (step world) (fun s => s.DepartsInOrder → s.link.departed ≠ [] → s.CurveIsLeast)
      (start tr W t now) calls := by
  refine always_of_eachStep (I := fun s => s.Inv ∧ s.ArrivalOrder) (fun s h hdeparts hne => ?_)
    (fun _ _ _ h hs _ => ⟨(h.1.step hs).1, h.2.step h.1 hs⟩)
    ⟨inv_start tr W t now, arrivalOrder_start tr W t now⟩ (eachStep_true _ _ calls)
  obtain ⟨g, hlog, hreads⟩ := DelayGraph.processLog_logText h.1.dated.logged
  rw [flatMap_trips] at hreads
  have hnil : s.trips ≠ [] := by simpa [trips] using hne
  obtain ⟨stats, first, last, hstats, hcurve⟩ :=
    hreads.statistics hnil (h.2.noOvertaking hdeparts) (wholeStarts_trips s)
  exact ⟨g, stats, first, last, hlog, hstats, hcurve⟩

/-- Packets that arrive at 1 and at 2 milliseconds, and depart together at 10. -/
theorem signal_delay_is_least_twoPackets :
    ∃ written link, LinkQueue.run (fun _ => ⟨0, 0, 0⟩) twoPackets
        (start LinkQueue.twoOpportunities .machine .infinite 0).link = .ok (written, link) ∧
      link.departed = [(10, ⟨1, [7]⟩), (10, ⟨2, [8, 9]⟩)] ∧ CurveIsLeast ⟨link, 0, 10⟩ := by
  have hcurve := signal_delay_is_least LinkQueue.twoOpportunities .machine .infinite 0
    (fun _ => ⟨0, 0, 0⟩) twoPackets
  obtain ⟨-, hcurve⟩ := hcurve
  obtain ⟨-, hcurve⟩ := hcurve _ rfl
  obtain ⟨-, hcurve⟩ := hcurve _ rfl
  have horder : [10, 10].Pairwise (· ≤ ·) := by decide
  exact ⟨_, _, rfl, rfl, hcurve _ rfl horder (List.cons_ne_nil _ _)⟩

end LoggedLink

end Mahimahi
