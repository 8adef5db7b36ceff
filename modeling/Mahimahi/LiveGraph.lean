import Mathlib.Data.Nat.Basic
import Mathlib.Order.Basic
import Mahimahi.Machine
import Mahimahi.Run

/-!
# The graphs that are drawn while the link runs

Two threads share a `BinnedLiveGraph`. The one that runs the link adds a value in two
steps, each under the mutex: first it closes the bins that are over by its reading of the
clock, one line after the other, then it adds to the bin that is open by that time. In
between, and at any other time, the thread that draws may have closed bins as well, and
may have popped points that have moved out of the picture.

That thread is started by the constructor, before `initialize_new_bin_` is there and before
the lines have their first points. If a bin ends that early, its end calls a function that
does not exist yet, or gets ahead of the first point. This is the one way to a wrong
picture (`live_graph_shows`). Otherwise what is kept of a line is how its values are spread
over the bins (`Binned`): no value is lost or counted twice, none is put in a bin that was
over when it came, and each bin that is over has its one point.
-/

namespace Mahimahi

/-! ## The graph -/

/-- What a graph is made with: how long a bin is, and what `initialize_new_bin` sets a
value to. -/
structure GraphType where
  binWidthMs : Nat
  newBin : Int
  width_pos : 0 < binWidthMs

/-- The two graphs of a link. -/
def throughputGraph : GraphType := ⟨500, 0, by decide⟩

/-- A point of the graph: its time in milliseconds, and the value before it is scaled. -/
structure DataPoint where
  time : Nat
  value : Int
  deriving DecidableEq, Repr

/-- A line: its value in the open bin and its points; for the record, the points that
have been popped. -/
structure GraphLine where
  valueThisBin : Int
  dataPoints : List DataPoint
  popped : List DataPoint
  deriving DecidableEq, Repr

structure BinnedLiveGraph where
  currentBin : Nat
  lines : List GraphLine
  deriving DecidableEq, Repr

/-- The two methods that the link calls, with their arguments of type `unsigned int`. -/
inductive GraphCall where
  | addValueNow (num amount : Nat)
  | setMaxValueNow (num amount : Nat)
  deriving DecidableEq, Repr

namespace GraphCall

def num : GraphCall → Nat
  | addValueNow num _ => num
  | setMaxValueNow num _ => num

def amount : GraphCall → Nat
  | addValueNow _ amount => amount
  | setMaxValueNow _ amount => amount

/-- What the method does to the value of its line. -/
def put : GraphCall → Int → Except Fault Int
  | addValueNow _ amount, value =>
      if value < 0 then .error (.runtimeError "BinnedLiveGraph: attempt to add to a default value")
      else .ok (i32 (value + amount))
  | setMaxValueNow _ amount, value =>
      if value < 0 then .ok (i32 amount) else .ok (i32 (max value amount))

end GraphCall

/-- `add_data_point`. -/
def GraphLine.addDataPoint (line : GraphLine) (p : DataPoint) : GraphLine :=
  { line with dataPoints := line.dataPoints ++ [p] }

namespace BinnedLiveGraph

variable (T : GraphType)

/-- What the constructor has initialised when it starts the thread that draws, for so many
lines, at the clock reading `now`. -/
def create (lines now : Nat) : BinnedLiveGraph where
  currentBin := now / T.binWidthMs
  lines := List.replicate lines ⟨0, [], []⟩

/-- The first point of line `i`. -/
def addFirstPoint (i : Nat) (g : BinnedLiveGraph) : BinnedLiveGraph :=
  { g with lines := g.lines.modify i fun line => line.addDataPoint ⟨0, 0⟩ }

/-- The end of a bin, for one line: `add_data_point` and `initialize_new_bin_`. -/
def endBin (bin : Nat) (line : GraphLine) : GraphLine :=
  { line.addDataPoint ⟨(bin + 1) * T.binWidthMs, line.valueThisBin⟩ with valueThisBin := T.newBin }

/-- A turn of the inner loop of `advance`. -/
def closeLine (i : Nat) (g : BinnedLiveGraph) : BinnedLiveGraph :=
  { g with lines := g.lines.modify i (endBin T g.currentBin) }

/-- What `add_value_now` and `set_max_value_now` do under their second lock. -/
def update (c : GraphCall) (g : BinnedLiveGraph) : Except Fault BinnedLiveGraph :=
  match g.lines[c.num]? with
  | none => .error .outOfRange
  | some line => do
      let value ← c.put line.valueThisBin
      return { g with lines := g.lines.set c.num { line with valueThisBin := value } }

/-- The first loop of `blocking_draw`: what is popped of the points, and what stays. Two
points from before the picture are one too many. -/
def popOld (oldest : Int) : List DataPoint → List DataPoint × List DataPoint
  | p :: q :: rest =>
      if (p.time : Int) < oldest ∧ (q.time : Int) < oldest then
        let (popped, left) := popOld oldest (q :: rest)
        (p :: popped, left)
      else ([], p :: q :: rest)
  | points => ([], points)

def popLine (oldest : Int) (line : GraphLine) : GraphLine :=
  { line with
    dataPoints := (popOld oldest line.dataPoints).2
    popped := line.popped ++ (popOld oldest line.dataPoints).1 }

def pop (oldest : Int) (g : BinnedLiveGraph) : BinnedLiveGraph :=
  { g with lines := g.lines.map (popLine oldest) }

end BinnedLiveGraph

/-! ## The two threads -/

/-- An `advance` under way, which has the mutex: whether it is the one of the thread that
draws, its reading of the clock, and the line whose turn it is. -/
structure Advance where
  drawing : Bool
  now : Nat
  line : Nat
  deriving DecidableEq, Repr

/-- The graph between any two steps of the threads. `initialized` says if there is an
`initialize_new_bin_` yet, and `begun` how many lines have their first point. `pending` is
a call that is closing the bins by its clock reading, or has done so, and has not put its
value yet. A call of the function that is not there is `undefined`. For the record: the
calls that have been made, each with its reading, and the latest reading of an `advance`
that has ended. -/
structure LiveGraph where
  graph : BinnedLiveGraph
  initialized : Bool
  begun : Nat
  advancing : Option Advance
  pending : Option (Nat × GraphCall)
  thrown : Option Fault
  undefined : Bool
  made : List (Nat × GraphCall)
  latest : Nat
  deriving DecidableEq, Repr

namespace LiveGraph

/-- A step of the thread of the link, which begins in the constructor, or one of the thread
that draws; a `turn` of the loops of `advance` is of whoever is in them. -/
inductive Event where
  | initializeNewBin
  | addFirstPoint
  | call (now : Nat) (c : GraphCall)
  | animate (now : Nat)
  | turn
  | put
  | draw (oldest : Int)

/-- The thread that draws has been started. -/
def create (T : GraphType) (lines now : Nat) : LiveGraph where
  graph := .create T lines now
  initialized := false
  begun := 0
  advancing := none
  pending := none
  thrown := none
  undefined := false
  made := []
  latest := now

/-- The constructor has returned. -/
def Constructed (s : LiveGraph) : Prop := s.initialized = true ∧ s.begun = s.graph.lines.length

instance decidableConstructed (s : LiveGraph) : Decidable (Constructed s) :=
  inferInstanceAs (Decidable (_ ∧ _))

/-- What comes next in the loops of `advance`: a line of the open bin, the next bin, or the
end. -/
def turn (T : GraphType) (a : Advance) (s : LiveGraph) : LiveGraph :=
  if s.graph.currentBin < a.now / T.binWidthMs then
    if a.line < s.graph.lines.length then
      if s.initialized then
        { s with
          graph := s.graph.closeLine T a.line
          advancing := some { a with line := a.line + 1 } }
      else { s with undefined := true }
    else
      { s with
        graph := { s.graph with currentBin := s.graph.currentBin + 1 }
        advancing := some { a with line := 0 } }
  else { s with advancing := none, latest := max s.latest a.now }

def step (T : GraphType) (s : LiveGraph) : Event → Option LiveGraph
  | .initializeNewBin => if s.initialized then none else some { s with initialized := true }
  | .addFirstPoint =>
      if s.initialized = true ∧ s.begun < s.graph.lines.length then
        some { s with graph := s.graph.addFirstPoint s.begun, begun := s.begun + 1 }
      else none
  | .call now c =>
      if Constructed s ∧ s.advancing = none ∧ s.pending = none ∧ s.thrown = none then
        some { s with advancing := some ⟨false, now, 0⟩, pending := some (now, c) }
      else none
  | .animate now =>
      if s.advancing = none then some { s with advancing := some ⟨true, now, 0⟩ } else none
  | .turn => if s.undefined then none else s.advancing.map fun a => turn T a s
  | .put =>
      match s.advancing, s.pending with
      | none, some c =>
          match s.graph.update c.2 with
          | .error e => some { s with pending := none, thrown := some e }
          | .ok graph => some { s with graph := graph, pending := none, made := s.made ++ [c] }
      | _, _ => none
  | .draw oldest =>
      if ∀ a ∈ s.advancing, a.drawing = false then some { s with graph := s.graph.pop oldest }
      else none

/-- The line whose bin the next turn ends. -/
def closing (T : GraphType) (s : LiveGraph) : Option Nat :=
  s.advancing.bind fun a =>
    if s.graph.currentBin < a.now / T.binWidthMs ∧ a.line < s.graph.lines.length then some a.line
    else none

/-! ## The bins -/

/-- The bin that is open for line `n`. Within the loops of `advance` the lines before the one
whose turn it is are one ahead. -/
def openBin (s : LiveGraph) (n : Nat) : Nat :=
  match s.advancing with
  | some a => if n < a.line then s.graph.currentBin + 1 else s.graph.currentBin
  | none => s.graph.currentBin

/-- The value of a bin that has had these calls, from `start` on. -/
def valueOf (start : Int) (calls : List (Nat × GraphCall)) : Except Fault Int :=
  calls.foldlM (fun value c => c.2.put value) start

/-- The constructor starts with 0, whatever a new bin starts with. -/
def startOf (T : GraphType) (i : Nat) : Int := if i = 0 then 0 else T.newBin

/-- All the points that a line has ever had. -/
def points (line : GraphLine) : List DataPoint := line.popped ++ line.dataPoints

/-- How the calls on line `n` are spread over the bins: those in `bins` are over, the first
of them being `first`, and `current` is open. -/
structure Binned (T : GraphType) (first n : Nat) (made : List (Nat × GraphCall)) (bin : Nat)
    (line : GraphLine) (bins : List (List (Nat × GraphCall))) (current : List (Nat × GraphCall)) :
    Prop where
  calls : made.filter (fun c => decide (c.2.num = n)) = bins.flatten ++ current
  closed : first + bins.length = bin
  start : (points line)[0]? = some ⟨0, 0⟩
  length : (points line).length = bins.length + 1
  point : ∀ i calls, bins[i]? = some calls → ∃ value, valueOf (startOf T i) calls = .ok value ∧
    (points line)[i + 1]? = some ⟨(first + i + 1) * T.binWidthMs, value⟩
  value : valueOf (startOf T bins.length) current = .ok line.valueThisBin
  timely : ∀ i calls, bins[i]? = some calls → ∀ c ∈ calls, c.1 / T.binWidthMs ≤ first + i
  timely_current : ∀ c ∈ current, c.1 / T.binWidthMs ≤ bin

/-- The promise: the open bin is that of the latest reading, every line that the
constructor has got to is binned, and the others are untouched. -/
structure Shows (T : GraphType) (first : Nat) (s : LiveGraph) : Prop where
  defined : s.undefined = false
  current : s.advancing = none → s.graph.currentBin = s.latest / T.binWidthMs
  binned : ∀ n line, s.graph.lines[n]? = some line → n < s.begun → ∃ bins current,
    Binned T first n s.made (s.openBin n) line bins current
  untouched : ∀ n line, s.graph.lines[n]? = some line → s.begun ≤ n → line = ⟨0, [], []⟩

/-- The constructor has got to a line before a bin of it ends. -/
def Ready (T : GraphType) (s : LiveGraph) : Event → Prop
  | .turn => ∀ n ∈ closing T s, s.initialized = true ∧ n < s.begun
  | _ => True

instance decidableReady (T : GraphType) (s : LiveGraph) : ∀ e, Decidable (Ready T s e)
  | .turn => inferInstanceAs (Decidable (∀ n ∈ closing T s, s.initialized = true ∧ n < s.begun))
  | .initializeNewBin | .addFirstPoint | .call _ _ | .animate _ | .put | .draw _ => isTrue trivial

/-- What is kept for it. -/
structure Keeps (T : GraphType) (first : Nat) (s : LiveGraph) : Prop where
  shows_ : Shows T first s
  pending : ∀ c ∈ s.pending, c.1 ≤ s.latest ∨ ∃ a ∈ s.advancing, a.now = c.1
  reached : s.latest / T.binWidthMs ≤ s.graph.currentBin
  turning : ∀ a ∈ s.advancing,
    s.graph.currentBin ≤ max (s.latest / T.binWidthMs) (a.now / T.binWidthMs) ∧
      (0 < a.line → s.graph.currentBin < a.now / T.binWidthMs)
  unused : s.begun < s.graph.lines.length → s.made = [] ∧ s.pending = none
  first : ∀ n, s.begun ≤ n → n < s.graph.lines.length → s.openBin n = first

section

open BinnedLiveGraph

variable {T : GraphType} {first n bin : Nat} {s s' : LiveGraph} {a : Advance} {line : GraphLine}
  {made : List (Nat × GraphCall)} {bins : List (List (Nat × GraphCall))}
  {current : List (Nat × GraphCall)}

/-! ### What a turn can do -/

/-- The turns of `advance`. -/
inductive Turn (T : GraphType) (a : Advance) (s : LiveGraph) : LiveGraph → Prop where
  | close (hover : s.graph.currentBin < a.now / T.binWidthMs)
      (hline : a.line < s.graph.lines.length) (hinit : s.initialized = true) :
      Turn T a s { s with
        graph := s.graph.closeLine T a.line
        advancing := some { a with line := a.line + 1 } }
  | undefined (hover : s.graph.currentBin < a.now / T.binWidthMs)
      (hline : a.line < s.graph.lines.length) (hinit : s.initialized = false) :
      Turn T a s { s with undefined := true }
  | next (hover : s.graph.currentBin < a.now / T.binWidthMs)
      (hline : s.graph.lines.length ≤ a.line) :
      Turn T a s { s with
        graph := { s.graph with currentBin := s.graph.currentBin + 1 }
        advancing := some { a with line := 0 } }
  | finish (hopen : a.now / T.binWidthMs ≤ s.graph.currentBin) :
      Turn T a s { s with advancing := none, latest := max s.latest a.now }

theorem turn_spec (T : GraphType) (a : Advance) (s : LiveGraph) : Turn T a s (turn T a s) := by
  unfold turn
  split
  · next hover =>
      split
      · next hline =>
          split
          · next hinit => exact .close hover hline hinit
          · next hinit => exact .undefined hover hline (Bool.eq_false_iff.mpr hinit)
      · next hline => exact .next hover (Nat.le_of_not_lt hline)
  · next hopen => exact .finish (Nat.le_of_not_lt hopen)

theorem turn_of_step (h : step T s .turn = some s') :
    ∃ a, s.advancing = some a ∧ Turn T a s s' := by
  simp only [step] at h
  split at h
  · cases h
  · obtain ⟨a, ha, rfl⟩ := Option.map_eq_some_iff.mp h
    exact ⟨a, ha, turn_spec T a s⟩

theorem closing_eq (ha : s.advancing = some a) (hover : s.graph.currentBin < a.now / T.binWidthMs)
    (hline : a.line < s.graph.lines.length) : closing T s = some a.line := by
  rw [closing, ha]
  exact if_pos ⟨hover, hline⟩

theorem of_getElem?_modify {lines : List GraphLine} {i : Nat} {f : GraphLine → GraphLine}
    (h : (lines.modify i f)[n]? = some line) :
    ∃ line₀, lines[n]? = some line₀ ∧ (i = n ∧ line = f line₀ ∨ i ≠ n ∧ line = line₀) := by
  rw [List.getElem?_modify] at h
  obtain ⟨line₀, hline₀, rfl⟩ := Option.map_eq_some_iff.mp h
  refine ⟨line₀, hline₀, ?_⟩
  by_cases hi : i = n
  · exact .inl ⟨hi, if_pos hi⟩
  · exact .inr ⟨hi, if_neg hi⟩

theorem openBin_of_none (h : s.advancing = none) (n : Nat) : s.openBin n = s.graph.currentBin := by
  rw [openBin, h]

theorem openBin_of_some (h : s.advancing = some a) (n : Nat) : s.openBin n
    = if n < a.line then s.graph.currentBin + 1 else s.graph.currentBin := by
  rw [openBin, h]

/-! ### What the steps do to the bins -/

theorem points_endBin (bin : Nat) (line : GraphLine) : points (endBin T bin line)
    = points line ++ [⟨(bin + 1) * T.binWidthMs, line.valueThisBin⟩] :=
  (List.append_assoc ..).symm

/-- The open bin is closed, and the line gets a point for it. -/
theorem Binned.close (h : Binned T first n made bin line bins current) :
    Binned T first n made (bin + 1) (endBin T bin line) (bins ++ [current]) [] where
  calls := by
    rw [List.flatten_append, List.flatten_singleton, List.append_nil]
    exact h.calls
  closed := by
    have := h.closed
    rw [List.length_append, List.length_singleton]
    omega
  start := by
    have hlt : 0 < (points line).length := by
      have := h.length
      omega
    rw [points_endBin]
    exact (List.getElem?_append_left hlt).trans h.start
  length := by
    rw [points_endBin, List.length_append, List.length_append, h.length]
    rfl
  point := by
    intro i calls hi
    have hlength := h.length
    have hclosed := h.closed
    rw [points_endBin]
    rcases Nat.lt_or_ge i bins.length with hlt | hge
    · rw [List.getElem?_append_left hlt] at hi
      obtain ⟨value, hvalue, hpoint⟩ := h.point i calls hi
      have hlt' : i + 1 < (points line).length := by omega
      exact ⟨value, hvalue, (List.getElem?_append_left hlt').trans hpoint⟩
    · obtain ⟨hlt, hget⟩ := List.getElem?_eq_some_iff.mp hi
      rw [List.length_append, List.length_singleton] at hlt
      obtain rfl : i = bins.length := by omega
      rw [List.getElem?_concat_length] at hi
      obtain rfl := Option.some.inj hi
      refine ⟨_, h.value, ?_⟩
      rw [hclosed]
      have hat : bins.length + 1 = (points line).length := by omega
      rw [hat]
      exact List.getElem?_concat_length
  value := by
    have hne : startOf T (bins ++ [current]).length = T.newBin := by
      rw [startOf, List.length_append]
      exact if_neg (by simp)
    rw [hne]
    rfl
  timely := by
    intro i calls hi
    rcases Nat.lt_or_ge i bins.length with hlt | hge
    · rw [List.getElem?_append_left hlt] at hi
      exact h.timely i calls hi
    · obtain ⟨hlt, -⟩ := List.getElem?_eq_some_iff.mp hi
      rw [List.length_append, List.length_singleton] at hlt
      obtain rfl : i = bins.length := by omega
      rw [List.getElem?_concat_length] at hi
      obtain rfl := Option.some.inj hi
      rw [h.closed]
      exact h.timely_current
  timely_current := by
    intro c hc
    cases hc

theorem binned_first (T : GraphType) (first n : Nat) :
    Binned T first n [] first ((⟨0, [], []⟩ : GraphLine).addDataPoint ⟨0, 0⟩) [] [] where
  calls := rfl
  closed := rfl
  start := rfl
  length := rfl
  point i calls hi := by cases hi
  value := rfl
  timely i calls hi := by cases hi
  timely_current c hc := by cases hc

theorem Binned.of_points {line' : GraphLine} (h : Binned T first n made bin line bins current)
    (hpoints : points line' = points line) (hvalue : line'.valueThisBin = line.valueThisBin) :
    Binned T first n made bin line' bins current where
  calls := h.calls
  closed := h.closed
  start := hpoints ▸ h.start
  length := hpoints ▸ h.length
  point := hpoints ▸ h.point
  value := hvalue ▸ h.value
  timely := h.timely
  timely_current := h.timely_current

theorem Binned.other {c : Nat × GraphCall} (h : Binned T first n made bin line bins current)
    (hn : c.2.num ≠ n) : Binned T first n (made ++ [c]) bin line bins current where
  calls := by
    rw [List.filter_append, List.filter_cons_of_neg (by simpa using hn), List.filter_nil,
      List.append_nil]
    exact h.calls
  closed := h.closed
  start := h.start
  length := h.length
  point := h.point
  value := h.value
  timely := h.timely
  timely_current := h.timely_current

theorem Binned.put {c : Nat × GraphCall} {value : Int}
    (h : Binned T first c.2.num made bin line bins current)
    (hvalue : c.2.put line.valueThisBin = .ok value) (htime : c.1 / T.binWidthMs ≤ bin) :
    Binned T first c.2.num (made ++ [c]) bin { line with valueThisBin := value } bins
      (current ++ [c]) where
  calls := by
    rw [List.filter_append, h.calls, ← List.append_assoc]
    simp
  closed := h.closed
  start := h.start
  length := h.length
  point := h.point
  value := by
    rw [valueOf, List.foldlM_append]
    refine bind_eq_ok.mpr ⟨line.valueThisBin, h.value, ?_⟩
    simp [hvalue]
  timely := h.timely
  timely_current := by
    intro d hd
    rcases List.mem_append.mp hd with hd | hd
    · exact h.timely_current d hd
    · obtain rfl := List.mem_singleton.mp hd
      exact htime

theorem popOld_append (oldest : Int) : ∀ points : List DataPoint,
    (popOld oldest points).1 ++ (popOld oldest points).2 = points
  | [] => rfl
  | [p] => rfl
  | p :: q :: rest => by
      rw [popOld]
      split
      · exact congrArg (p :: ·) (popOld_append oldest (q :: rest))
      · rfl

theorem points_popLine (oldest : Int) (line : GraphLine) :
    points (popLine oldest line) = points line := by
  rw [points, popLine, List.append_assoc, popOld_append]
  rfl

theorem update_eq_ok {c : GraphCall} {g g' : BinnedLiveGraph} (h : g.update c = .ok g') :
    ∃ line value, g.lines[c.num]? = some line ∧ c.put line.valueThisBin = .ok value ∧
      g' = { g with lines := g.lines.set c.num { line with valueThisBin := value } } := by
  unfold BinnedLiveGraph.update at h
  split at h
  · cases h
  · next line hline =>
      obtain ⟨value, hvalue, h⟩ := bind_eq_ok.mp h
      cases h
      exact ⟨line, value, hline, hvalue, rfl⟩

theorem update_of_put {c : GraphCall} {g : BinnedLiveGraph} {value : Int}
    (hline : g.lines[c.num]? = some line) (hput : c.put line.valueThisBin = .ok value) :
    g.update c = .ok { g with
      lines := g.lines.set c.num { line with valueThisBin := value } } := by
  simp only [BinnedLiveGraph.update, hline, hput, ok_bind, pure_eq_ok]

/-! ### What the steps keep -/

theorem Keeps.initialized (h : Keeps T first s) : Keeps T first { s with initialized := true } where
  shows_ := ⟨h.shows_.defined, h.shows_.current, h.shows_.binned, h.shows_.untouched⟩
  pending := h.pending
  reached := h.reached
  turning := h.turning
  unused := h.unused
  first := h.first

theorem Keeps.addFirstPoint (h : Keeps T first s) (hlt : s.begun < s.graph.lines.length) :
    Keeps T first { s with graph := s.graph.addFirstPoint s.begun, begun := s.begun + 1 } where
  shows_ := {
    defined := h.shows_.defined
    current := h.shows_.current
    binned := by
      intro n line hline hn
      obtain ⟨line₀, hline₀, ⟨rfl, rfl⟩ | ⟨hne, rfl⟩⟩ := of_getElem?_modify hline
      · rw [h.shows_.untouched s.begun line₀ hline₀ le_rfl]
        refine ⟨[], [], ?_⟩
        show Binned T first s.begun s.made (s.openBin s.begun) _ [] []
        rw [(h.unused hlt).1, h.first s.begun le_rfl hlt]
        exact binned_first T first s.begun
      · have hn : n < s.begun + 1 := hn
        exact h.shows_.binned n line hline₀ (by omega)
    untouched := by
      intro n line hline hn
      have hn : s.begun + 1 ≤ n := hn
      obtain ⟨line₀, hline₀, ⟨rfl, rfl⟩ | ⟨hne, rfl⟩⟩ := of_getElem?_modify hline
      · omega
      · exact h.shows_.untouched n line hline₀ (by omega) }
  pending := h.pending
  reached := h.reached
  turning := h.turning
  unused _ := h.unused hlt
  first n hn hlt' := by
    have hn : s.begun + 1 ≤ n := hn
    have hlt' : n < (s.graph.lines.modify s.begun _).length := hlt'
    rw [List.length_modify] at hlt'
    exact h.first n (by omega) hlt'

theorem Keeps.advance (h : Keeps T first s) (hfree : s.advancing = none) (drawing : Bool)
    (now : Nat) {pending : Option (Nat × GraphCall)}
    (hpending : ∀ c ∈ pending, c.1 ≤ s.latest ∨ now = c.1)
    (hunused : s.begun < s.graph.lines.length → pending = none) :
    Keeps T first { s with advancing := some ⟨drawing, now, 0⟩, pending := pending } where
  shows_ := {
    defined := h.shows_.defined
    current := by rintro ⟨⟩
    binned := by
      intro n line hline hn
      have hbinned := h.shows_.binned n line hline hn
      rw [openBin_of_none hfree] at hbinned
      exact hbinned
    untouched := h.shows_.untouched }
  pending c hc := (hpending c hc).imp_right fun hnow => ⟨_, rfl, hnow⟩
  reached := h.reached
  turning := by
    rintro _ ⟨⟩
    have hcurrent := h.shows_.current hfree
    exact ⟨hcurrent.trans_le (Nat.le_max_left ..), fun hlt => absurd hlt (Nat.lt_irrefl 0)⟩
  unused hlt := ⟨(h.unused hlt).1, hunused hlt⟩
  first n hn hlt := by
    rw [← h.first n hn hlt, openBin_of_none hfree]
    rfl

theorem Keeps.pending_of_advancing (h : Keeps T first s) (ha : s.advancing = some a) :
    ∀ c ∈ s.pending, c.1 ≤ s.latest ∨ a.now = c.1 := by
  intro c hc
  refine (h.pending c hc).imp_right fun ⟨b, hb, hnow⟩ => ?_
  rw [ha] at hb
  cases hb
  exact hnow

theorem Keeps.closeLine (h : Keeps T first s) (ha : s.advancing = some a)
    (hover : s.graph.currentBin < a.now / T.binWidthMs) (hbegun : a.line < s.begun) :
    Keeps T first { s with
      graph := s.graph.closeLine T a.line
      advancing := some { a with line := a.line + 1 } } := by
  -- only the line whose turn it is goes on to the next bin
  have hopen : ∀ n, n ≠ a.line → s.openBin n
      = if n < a.line + 1 then s.graph.currentBin + 1 else s.graph.currentBin := by
    intro n hn
    rw [openBin_of_some ha]
    congr 1
    exact propext ⟨fun h => by omega, fun h => by omega⟩
  refine ⟨⟨h.shows_.defined, by rintro ⟨⟩, fun n line hline hn => ?_, fun n line hline hn => ?_⟩,
    fun c hc => (h.pending_of_advancing ha c hc).imp_right fun hnow => ⟨_, rfl, hnow⟩, h.reached, ?_,
    fun hlt => h.unused (by simpa [BinnedLiveGraph.closeLine] using hlt), fun n hn hlt => ?_⟩
  · obtain ⟨line₀, hline₀, ⟨rfl, rfl⟩ | ⟨hne, rfl⟩⟩ := of_getElem?_modify hline
    · obtain ⟨bins, current, hbinned⟩ := h.shows_.binned a.line line₀ hline₀ hn
      rw [openBin_of_some ha, if_neg (Nat.lt_irrefl _)] at hbinned
      refine ⟨bins ++ [current], [], ?_⟩
      rw [openBin_of_some rfl, if_pos (Nat.lt_succ_self a.line)]
      exact hbinned.close
    · obtain ⟨bins, current, hbinned⟩ := h.shows_.binned n line hline₀ hn
      rw [hopen n (Ne.symm hne)] at hbinned
      exact ⟨bins, current, hbinned⟩
  · obtain ⟨line₀, hline₀, ⟨rfl, rfl⟩ | ⟨hne, rfl⟩⟩ := of_getElem?_modify hline
    · exact absurd hbegun (Nat.not_lt.mpr hn)
    · exact h.shows_.untouched n line hline₀ hn
  · rintro _ ⟨⟩
    exact ⟨(h.turning a ha).1, fun _ => hover⟩
  · have hn : s.begun ≤ n := hn
    rw [← h.first n hn (by simpa [BinnedLiveGraph.closeLine] using hlt), hopen n (by omega)]
    rfl

theorem Keeps.nextBin (h : Keeps T first s) (ha : s.advancing = some a)
    (hover : s.graph.currentBin < a.now / T.binWidthMs) (hlt : s.graph.lines.length ≤ a.line) :
    Keeps T first { s with
      graph := { s.graph with currentBin := s.graph.currentBin + 1 }
      advancing := some { a with line := 0 } } := by
  have hopen : ∀ n, n < s.graph.lines.length → s.openBin n = s.graph.currentBin + 1 := by
    intro n hn
    rw [openBin_of_some ha, if_pos (Nat.lt_of_lt_of_le hn hlt)]
  refine ⟨⟨h.shows_.defined, by rintro ⟨⟩, fun n line hline hn => ?_, h.shows_.untouched⟩,
    fun c hc => (h.pending_of_advancing ha c hc).imp_right fun hnow => ⟨_, rfl, hnow⟩,
    h.reached.trans (Nat.le_succ _), ?_, h.unused, fun n hn hlt' => ?_⟩
  · obtain ⟨bins, current, hbinned⟩ := h.shows_.binned n line hline hn
    rw [hopen n (List.getElem?_eq_some_iff.mp hline).1] at hbinned
    exact ⟨bins, current, hbinned⟩
  · rintro _ ⟨⟩
    exact ⟨Nat.le_trans hover (Nat.le_max_right ..), fun hlt => absurd hlt (Nat.lt_irrefl 0)⟩
  · exact (hopen n hlt').symm.trans (h.first n hn hlt')

theorem Keeps.finish (h : Keeps T first s) (ha : s.advancing = some a)
    (hopen : a.now / T.binWidthMs ≤ s.graph.currentBin) :
    Keeps T first { s with advancing := none, latest := max s.latest a.now } := by
  obtain ⟨hle, hline⟩ := h.turning a ha
  -- the loops end between two bins
  have hzero : a.line = 0 := by
    by_contra hne
    exact absurd (hline (Nat.pos_of_ne_zero hne)) (Nat.not_lt.mpr hopen)
  have hbin : ∀ n, s.openBin n = s.graph.currentBin := by
    intro n
    rw [openBin_of_some ha, hzero]
    exact if_neg (Nat.not_lt_zero n)
  have hcurrent : s.graph.currentBin = max s.latest a.now / T.binWidthMs := by
    have hreached := h.reached
    rcases Nat.le_total s.latest a.now with hle' | hle'
    · have := Nat.div_le_div_right (c := T.binWidthMs) hle'
      rw [Nat.max_eq_right hle']
      omega
    · have := Nat.div_le_div_right (c := T.binWidthMs) hle'
      rw [Nat.max_eq_left hle']
      omega
  refine ⟨⟨h.shows_.defined, fun _ => hcurrent, fun n line hline hn => ?_, h.shows_.untouched⟩,
    fun c hc => .inl ?_, hcurrent.symm.le, by rintro _ ⟨⟩, h.unused, fun n hn hlt => ?_⟩
  · obtain ⟨bins, current, hbinned⟩ := h.shows_.binned n line hline hn
    rw [hbin n] at hbinned
    exact ⟨bins, current, hbinned⟩
  · show c.1 ≤ max s.latest a.now
    rcases h.pending_of_advancing ha c hc with hle' | heq
    · exact hle'.trans (Nat.le_max_left ..)
    · exact heq.symm.trans_le (Nat.le_max_right ..)
  · exact (hbin n).symm.trans (h.first n hn hlt)

theorem Keeps.turn (h : Keeps T first s) (ha : s.advancing = some a) (hturn : Turn T a s s')
    (hready : ∀ n ∈ closing T s, s.initialized = true ∧ n < s.begun) : Keeps T first s' := by
  cases hturn with
  | close hover hlt hinit =>
      exact h.closeLine ha hover (hready a.line (closing_eq ha hover hlt)).2
  | undefined hover hlt hinit =>
      have hinit' := (hready a.line (closing_eq ha hover hlt)).1
      rw [hinit] at hinit'
      cases hinit'
  | next hover hlt => exact h.nextBin ha hover hlt
  | finish hopen => exact h.finish ha hopen

theorem Keeps.put {c : Nat × GraphCall} {graph : BinnedLiveGraph} (h : Keeps T first s)
    (hfree : s.advancing = none) (hpending : s.pending = some c)
    (hupdate : s.graph.update c.2 = .ok graph) :
    Keeps T first { s with graph := graph, pending := none, made := s.made ++ [c] } := by
  obtain ⟨line, value, hline, hvalue, rfl⟩ := update_eq_ok hupdate
  have hbegun : s.graph.lines.length ≤ s.begun := by
    by_contra hlt
    rw [(h.unused (Nat.lt_of_not_le hlt)).2] at hpending
    cases hpending
  have htime : c.1 / T.binWidthMs ≤ s.graph.currentBin := by
    rw [h.shows_.current hfree]
    rcases h.pending c hpending with hle | ⟨a, ha, -⟩
    · exact Nat.div_le_div_right hle
    · rw [hfree] at ha
      cases ha
  have hbin : ∀ n line, s.graph.lines[n]? = some line → ∃ bins current,
      Binned T first n s.made s.graph.currentBin line bins current := by
    intro n line hline
    have hlt := (List.getElem?_eq_some_iff.mp hline).1
    rw [← openBin_of_none hfree n]
    exact h.shows_.binned n line hline (Nat.lt_of_lt_of_le hlt hbegun)
  refine ⟨⟨h.shows_.defined, h.shows_.current, fun n line' hline' hn => ?_,
    fun n line' hline' hn => ?_⟩, by rintro _ ⟨⟩, h.reached, h.turning, fun hlt => ?_,
    fun n hn hlt => ?_⟩
  · have hset : (s.graph.lines.set c.2.num { line with valueThisBin := value })[n]? = some line' :=
      hline'
    have hopen : openBin { s with
        graph := { s.graph with lines := s.graph.lines.set c.2.num { line with valueThisBin := value } }
        pending := none
        made := s.made ++ [c] } n = s.graph.currentBin := openBin_of_none hfree n
    rw [hopen]
    by_cases hnum : c.2.num = n
    · subst hnum
      rw [List.getElem?_set_self (List.getElem?_eq_some_iff.mp hline).1] at hset
      obtain rfl := Option.some.inj hset
      obtain ⟨bins, current, hbinned⟩ := hbin c.2.num line hline
      exact ⟨bins, _, hbinned.put hvalue htime⟩
    · rw [List.getElem?_set_ne hnum] at hset
      obtain ⟨bins, current, hbinned⟩ := hbin n line' hset
      exact ⟨bins, current, hbinned.other hnum⟩
  · have hlt := (List.getElem?_eq_some_iff.mp hline').1
    have hlt : n < (s.graph.lines.set c.2.num _).length := hlt
    rw [List.length_set] at hlt
    exact absurd (Nat.lt_of_lt_of_le hlt hbegun) (Nat.not_lt.mpr hn)
  · have hlt : s.begun < (s.graph.lines.set c.2.num _).length := hlt
    rw [List.length_set] at hlt
    exact absurd hlt (Nat.not_lt.mpr hbegun)
  · have hlt : n < (s.graph.lines.set c.2.num _).length := hlt
    rw [List.length_set] at hlt
    exact absurd (Nat.lt_of_lt_of_le hlt hbegun) (Nat.not_lt.mpr hn)

theorem Keeps.thrown (h : Keeps T first s) (e : Fault) :
    Keeps T first { s with pending := none, thrown := some e } where
  shows_ := ⟨h.shows_.defined, h.shows_.current, h.shows_.binned, h.shows_.untouched⟩
  pending := by rintro _ ⟨⟩
  reached := h.reached
  turning := h.turning
  unused hlt := ⟨(h.unused hlt).1, rfl⟩
  first := h.first

theorem of_getElem?_map {lines : List GraphLine} {f : GraphLine → GraphLine}
    (h : (lines.map f)[n]? = some line) : ∃ line₀, lines[n]? = some line₀ ∧ f line₀ = line := by
  rw [List.getElem?_map] at h
  exact Option.map_eq_some_iff.mp h

theorem Keeps.pop (h : Keeps T first s) (oldest : Int) :
    Keeps T first { s with graph := s.graph.pop oldest } where
  shows_ := {
    defined := h.shows_.defined
    current := h.shows_.current
    binned := by
      intro n line hline hn
      obtain ⟨line₀, hline₀, rfl⟩ := of_getElem?_map hline
      obtain ⟨bins, current, hbinned⟩ := h.shows_.binned n line₀ hline₀ hn
      exact ⟨bins, current, hbinned.of_points (points_popLine oldest line₀) rfl⟩
    untouched := by
      intro n line hline hn
      obtain ⟨line₀, hline₀, rfl⟩ := of_getElem?_map hline
      rw [h.shows_.untouched n line₀ hline₀ hn]
      rfl }
  pending := h.pending
  reached := h.reached
  turning := h.turning
  unused hlt := h.unused (by simpa [BinnedLiveGraph.pop] using hlt)
  first n hn hlt := h.first n hn (by simpa [BinnedLiveGraph.pop] using hlt)

theorem Keeps.step {e : Event} (h : Keeps T first s) (hstep : step T s e = some s')
    (hready : Ready T s e) : Keeps T first s' := by
  cases e with
  | initializeNewBin =>
      simp only [LiveGraph.step, Option.ite_none_left_eq_some, Option.some.injEq] at hstep
      obtain ⟨-, rfl⟩ := hstep
      exact h.initialized
  | addFirstPoint =>
      simp only [LiveGraph.step, Option.ite_none_right_eq_some, Option.some.injEq] at hstep
      obtain ⟨⟨-, hlt⟩, rfl⟩ := hstep
      exact h.addFirstPoint hlt
  | call now c =>
      simp only [LiveGraph.step, Option.ite_none_right_eq_some, Option.some.injEq] at hstep
      obtain ⟨⟨hconstructed, hfree, -⟩, rfl⟩ := hstep
      refine h.advance hfree false now (fun d hd => ?_) fun hlt => ?_
      · cases hd
        exact .inr rfl
      · exact absurd hconstructed.2 (Nat.ne_of_lt hlt)
  | animate now =>
      simp only [LiveGraph.step, Option.ite_none_right_eq_some, Option.some.injEq] at hstep
      obtain ⟨hfree, rfl⟩ := hstep
      refine h.advance hfree true now (fun d hd => ?_) fun hlt => (h.unused hlt).2
      refine (h.pending d hd).imp_right fun ⟨a, ha, _⟩ => ?_
      rw [hfree] at ha
      cases ha
  | turn =>
      obtain ⟨a, ha, hturn⟩ := turn_of_step hstep
      exact h.turn ha hturn hready
  | put =>
      simp only [LiveGraph.step] at hstep
      split at hstep
      · next c hfree hpending =>
          split at hstep
          · cases hstep
            exact h.thrown _
          · next graph hupdate =>
              cases hstep
              exact h.put hfree hpending hupdate
      · cases hstep
  | draw oldest =>
      simp only [LiveGraph.step, Option.ite_none_right_eq_some, Option.some.injEq] at hstep
      obtain ⟨-, rfl⟩ := hstep
      exact h.pop oldest

end

end LiveGraph

end Mahimahi
