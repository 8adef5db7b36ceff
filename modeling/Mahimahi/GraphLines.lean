import Mahimahi.LinkCapacity
import Mahimahi.LiveGraph

/-!
# What the lines of a graph show

From the bins of a line (`Binned`) follow the greatest values of the lines that show
delays, and beside them stand the sums of the lines that count bytes: the points and the
open bin add up to what has been added, as long as the bytes of a bin fit into an `int`
(`conserves_iff_fits`). With the calls of a link the lines of its graph are its records
(`live_graph_agrees`).
-/

namespace Mahimahi

namespace LiveGraph

section

open BinnedLiveGraph

variable {T : GraphType} {first n : Nat} {s s' : LiveGraph} {a : Advance} {line : GraphLine}

/-- A run with one line. The thread that draws begins before the constructor has set the
function; later it ends a bin while a value is on its way. -/
def overtaken (width : Nat) (c : Nat → Nat → GraphCall) : List Event :=
  [.animate 3, .initializeNewBin, .turn, .draw (-5000), .addFirstPoint,
    .call (width - 10) (c 0 40), .turn, .put, .call (width - 5) (c 0 100), .turn,
    .animate (width + 100), .turn, .turn, .turn, .put,
    .call (width + 200) (c 0 7), .turn, .draw (width + 50), .put,
    .animate (3 * width + 100), .turn, .turn, .turn, .turn, .turn, .draw (2 * width + 200)]

/-! ## Lines that count -/

/-- What the points of a line and its open bin add up to. -/
def total (line : GraphLine) : Int := ((points line).map DataPoint.value).sum + line.valueThisBin

/-- What has been added to line `n`. -/
def added (n : Nat) (s : LiveGraph) : Nat :=
  ((s.made.filter fun c => decide (c.2.num = n)).map fun c => c.2.amount).sum

/-- The graph shows all that has been added, and nothing has been thrown or undefined. -/
structure Conserves (s : LiveGraph) : Prop where
  thrown : s.thrown = none
  defined : s.undefined = false
  sums : ∀ n line, s.graph.lines[n]? = some line → total line = added n s

/-- The value has room in the open bin, and a bin that ends finds the function that begins
the next. -/
def Fits (T : GraphType) (s : LiveGraph) : Event → Prop
  | .put => s.advancing = none → ∀ c ∈ s.pending, ∀ line ∈ s.graph.lines[c.2.num]?,
      line.valueThisBin + c.2.amount < 2 ^ 31
  | .turn => ∀ _n ∈ closing T s, s.initialized = true
  | _ => True

instance decidableFits (T : GraphType) (s : LiveGraph) : ∀ e, Decidable (Fits T s e)
  | .put => inferInstanceAs (Decidable (s.advancing = none → ∀ c ∈ s.pending,
      ∀ line ∈ s.graph.lines[c.2.num]?, line.valueThisBin + c.2.amount < 2 ^ 31))
  | .turn => inferInstanceAs (Decidable (∀ _n ∈ closing T s, s.initialized = true))
  | .initializeNewBin | .addFirstPoint | .call _ _ | .animate _ | .draw _ => isTrue trivial

/-- The call is of `add_value_now`, for a line that there is. -/
def IsAdd (lines : Nat) (c : GraphCall) : Prop :=
  (∃ amount, c = .addValueNow c.num amount) ∧ c.num < lines

/-- What is kept for it: values are not negative. -/
structure Counts (lines : Nat) (s : LiveGraph) : Prop where
  conserves : Conserves s
  count : s.graph.lines.length = lines
  pending : ∀ c ∈ s.pending, IsAdd lines c.2
  nonneg : ∀ (n : Nat) (line : GraphLine), s.graph.lines[n]? = some line → 0 ≤ line.valueThisBin

theorem total_endBin (hT : T.newBin = 0) (bin : Nat) (line : GraphLine) :
    total (endBin T bin line) = total line := by
  rw [total, points_endBin, List.map_append, List.sum_append]
  simp [total, endBin, hT]

theorem total_addDataPoint (line : GraphLine) : total (line.addDataPoint ⟨0, 0⟩) = total line := by
  have hpoints : points (line.addDataPoint ⟨0, 0⟩) = points line ++ [⟨0, 0⟩] :=
    (List.append_assoc ..).symm
  rw [total, hpoints, List.map_append, List.sum_append]
  simp [total, GraphLine.addDataPoint]

/-- What changes the lines one by one, and neither their sums nor that the values are not
negative. -/
theorem Counts.of_lines {lines currentBin begun latest : Nat} {ls : List GraphLine}
    {initialized : Bool} {advancing : Option Advance} {pending : Option (Nat × GraphCall)}
    (h : Counts lines s) (hlength : ls.length = s.graph.lines.length)
    (hlines : ∀ (n : Nat) (line : GraphLine), ls[n]? = some line → ∃ line₀, s.graph.lines[n]? = some line₀ ∧
      total line = total line₀ ∧ (0 ≤ line₀.valueThisBin → 0 ≤ line.valueThisBin))
    (hpending : ∀ c ∈ pending, IsAdd lines c.2) :
    Counts lines { s with
      graph := ⟨currentBin, ls⟩, initialized := initialized, begun := begun,
      advancing := advancing, pending := pending, latest := latest } where
  conserves := by
    refine ⟨h.conserves.thrown, h.conserves.defined, fun n line hline => ?_⟩
    obtain ⟨line₀, hline₀, htotal, -⟩ := hlines n line hline
    rw [htotal]
    exact h.conserves.sums n line₀ hline₀
  count := hlength.trans h.count
  pending := hpending
  nonneg n line hline := by
    obtain ⟨line₀, hline₀, -, hnonneg⟩ := hlines n line hline
    exact hnonneg (h.nonneg n line₀ hline₀)

theorem Counts.frame {lines currentBin begun latest : Nat} {initialized : Bool}
    {advancing : Option Advance} {pending : Option (Nat × GraphCall)} (h : Counts lines s)
    (hpending : ∀ c ∈ pending, IsAdd lines c.2) :
    Counts lines { s with
      graph := ⟨currentBin, s.graph.lines⟩, initialized := initialized, begun := begun,
      advancing := advancing, pending := pending, latest := latest } :=
  h.of_lines rfl (fun _ line hline => ⟨line, hline, rfl, id⟩) hpending

theorem Counts.modify {lines i begun : Nat} {f : GraphLine → GraphLine}
    {advancing : Option Advance} (h : Counts lines s) (htotal : ∀ line, total (f line) = total line)
    (hnonneg : ∀ line, 0 ≤ line.valueThisBin → 0 ≤ (f line).valueThisBin) :
    Counts lines { s with
      graph := ⟨s.graph.currentBin, s.graph.lines.modify i f⟩, begun := begun,
      advancing := advancing } := by
  refine h.of_lines (List.length_modify ..) (fun n line hline => ?_) h.pending
  obtain ⟨line₀, hline₀, ⟨rfl, rfl⟩ | ⟨-, rfl⟩⟩ := of_getElem?_modify hline
  · exact ⟨line₀, hline₀, htotal line₀, hnonneg line₀⟩
  · exact ⟨line, hline₀, rfl, id⟩

theorem added_append (n : Nat) (s : LiveGraph) (c : Nat × GraphCall) {graph : BinnedLiveGraph}
    {pending : Option (Nat × GraphCall)} :
    added n { s with graph := graph, pending := pending, made := s.made ++ [c] }
      = added n s + if c.2.num = n then c.2.amount else 0 := by
  rw [added, List.filter_append, List.map_append, List.sum_append]
  by_cases hn : c.2.num = n
  · rw [if_pos hn, List.filter_cons_of_pos (by simpa using hn)]
    rfl
  · rw [if_neg hn, List.filter_cons_of_neg (by simpa using hn)]
    rfl

theorem total_withValue (line : GraphLine) (v : Int) :
    total { line with valueThisBin := v } = total line - line.valueThisBin + v := by
  show ((points line).map DataPoint.value).sum + v = _
  rw [total]
  omega

/-- What `put` does to the line of the value. -/
theorem Counts.update {lines : Nat} {c : Nat × GraphCall} (h : Counts lines s)
    (hpending : s.pending = some c) : ∃ line, s.graph.lines[c.2.num]? = some line ∧
      s.graph.update c.2 = .ok { s.graph with
        lines := s.graph.lines.set c.2.num { line with
          valueThisBin := i32 (line.valueThisBin + c.2.amount) } } := by
  obtain ⟨⟨amount, hadd⟩, hlt⟩ := h.pending c hpending
  have hlt' : c.2.num < s.graph.lines.length := by
    rw [h.count]
    exact hlt
  obtain ⟨line, hline⟩ : ∃ line, s.graph.lines[c.2.num]? = some line :=
    ⟨_, List.getElem?_eq_getElem hlt'⟩
  have hnonneg := h.nonneg _ line hline
  have hamount : c.2.amount = amount := by
    rw [hadd]
    rfl
  refine ⟨line, hline, update_of_put hline ?_⟩
  rw [hamount, hadd]
  exact if_neg (by omega)

theorem Counts.put {lines : Nat} {c : Nat × GraphCall} (h : Counts lines s)
    (hline : s.graph.lines[c.2.num]? = some line)
    (hfits : line.valueThisBin + c.2.amount < 2 ^ 31) :
    Counts lines { s with
      graph := { s.graph with
        lines := s.graph.lines.set c.2.num { line with
          valueThisBin := i32 (line.valueThisBin + c.2.amount) } }
      pending := none
      made := s.made ++ [c] } := by
  have hnonneg := h.nonneg _ _ hline
  have hi32 : i32 (line.valueThisBin + c.2.amount) = line.valueThisBin + c.2.amount :=
    Int.bmod_eq_of_le (by omega) (by omega)
  have hlines : ∀ n (line' : GraphLine), (s.graph.lines.set c.2.num { line with
      valueThisBin := i32 (line.valueThisBin + c.2.amount) })[n]? = some line' →
      c.2.num = n ∧ line' = { line with valueThisBin := line.valueThisBin + c.2.amount } ∨
        c.2.num ≠ n ∧ s.graph.lines[n]? = some line' := by
    intro n line' hline'
    by_cases hn : c.2.num = n
    · subst hn
      rw [List.getElem?_set_self (List.getElem?_eq_some_iff.mp hline).1, hi32] at hline'
      exact .inl ⟨rfl, (Option.some.inj hline').symm⟩
    · rw [List.getElem?_set_ne hn] at hline'
      exact .inr ⟨hn, hline'⟩
  refine ⟨⟨h.conserves.thrown, h.conserves.defined, fun n line' hline' => ?_⟩, ?_,
    by rintro _ ⟨⟩, fun n line' hline' => ?_⟩
  · rw [added_append]
    rcases hlines n line' hline' with ⟨rfl, rfl⟩ | ⟨hn, hline'⟩
    · rw [total_withValue, if_pos rfl, h.conserves.sums _ line hline]
      omega
    · rw [if_neg hn]
      exact h.conserves.sums n line' hline'
  · rw [← h.count]
    exact List.length_set
  · rcases hlines n line' hline' with ⟨rfl, rfl⟩ | ⟨hn, hline'⟩
    · show 0 ≤ line.valueThisBin + c.2.amount
      omega
    · exact h.nonneg n line' hline'

/-- The sum is right only if the `int` has not wrapped. -/
theorem Counts.fits {lines : Nat} {c : Nat × GraphCall} (h : Counts lines s)
    (hline : s.graph.lines[c.2.num]? = some line)
    (hconserves : Conserves { s with
      graph := { s.graph with
        lines := s.graph.lines.set c.2.num { line with
          valueThisBin := i32 (line.valueThisBin + c.2.amount) } }
      pending := none
      made := s.made ++ [c] }) :
    line.valueThisBin + c.2.amount < 2 ^ 31 := by
  have hsum := h.conserves.sums c.2.num line hline
  have hsum' := hconserves.sums c.2.num _
    (List.getElem?_set_self (List.getElem?_eq_some_iff.mp hline).1)
  rw [added_append, if_pos rfl, total_withValue] at hsum'
  have hlt : i32 (line.valueThisBin + c.2.amount) < 2 ^ 31 := Int.bmod_lt (by decide)
  omega

theorem Counts.turn {lines : Nat} (hT : T.newBin = 0) (h : Counts lines s)
    (ha : s.advancing = some a) (hturn : Turn T a s s')
    (hready : ∀ _n ∈ closing T s, s.initialized = true) : Counts lines s' := by
  cases hturn with
  | close => exact h.modify (total_endBin hT _) fun _ _ => Int.le_of_eq hT.symm
  | undefined hover hlt hinit =>
      have hinit' := hready a.line (closing_eq ha hover hlt)
      rw [hinit] at hinit'
      cases hinit'
  | next => exact h.frame h.pending
  | finish => exact h.frame h.pending

theorem Counts.step {lines : Nat} {e : Event} (hT : T.newBin = 0) (h : Counts lines s)
    (hadds : ∀ t c, e = .call t c → IsAdd lines c) (hstep : step T s e = some s')
    (hfits : Fits T s e) : Counts lines s' := by
  cases e with
  | initializeNewBin =>
      simp only [LiveGraph.step, Option.ite_none_left_eq_some, Option.some.injEq] at hstep
      obtain ⟨-, rfl⟩ := hstep
      exact h.frame h.pending
  | addFirstPoint =>
      simp only [LiveGraph.step, Option.ite_none_right_eq_some, Option.some.injEq] at hstep
      obtain ⟨-, rfl⟩ := hstep
      exact h.modify total_addDataPoint fun _ hnonneg => hnonneg
  | call now c =>
      simp only [LiveGraph.step, Option.ite_none_right_eq_some, Option.some.injEq] at hstep
      obtain ⟨-, rfl⟩ := hstep
      refine h.frame ?_
      rintro _ ⟨⟩
      exact hadds now c rfl
  | animate now =>
      simp only [LiveGraph.step, Option.ite_none_right_eq_some, Option.some.injEq] at hstep
      obtain ⟨-, rfl⟩ := hstep
      exact h.frame h.pending
  | turn =>
      obtain ⟨a, ha, hturn⟩ := turn_of_step hstep
      exact h.turn hT ha hturn hfits
  | put =>
      simp only [LiveGraph.step] at hstep
      split at hstep
      · next c hfree hpending =>
          obtain ⟨line, hline, hupdate⟩ := h.update hpending
          rw [hupdate] at hstep
          cases hstep
          exact h.put hline (hfits hfree c hpending line hline)
      · cases hstep
  | draw oldest =>
      simp only [LiveGraph.step, Option.ite_none_right_eq_some, Option.some.injEq] at hstep
      obtain ⟨-, rfl⟩ := hstep
      refine h.of_lines (List.length_map _) (fun n line hline => ?_) h.pending
      obtain ⟨line₀, hline₀, rfl⟩ := of_getElem?_map hline
      refine ⟨line₀, hline₀, ?_, id⟩
      rw [total, points_popLine]
      rfl

theorem counts_create (T : GraphType) (lines now : Nat) : Counts lines (create T lines now) := by
  have hline : ∀ (n : Nat) (line : GraphLine), (create T lines now).graph.lines[n]? = some line →
      line = ⟨0, [], []⟩ := by
    intro n line hline
    exact List.eq_of_mem_replicate (List.mem_of_getElem? hline)
  refine ⟨⟨rfl, rfl, fun n line h => ?_⟩, List.length_replicate, by rintro _ ⟨⟩, fun n line h => ?_⟩
  · exact (congrArg total (hline n line h)).trans rfl
  · rw [hline n line h]

/-- **A graph that counts loses nothing as long as its bins have room.** In every run of
the two threads in which the link only adds values: the points and the open bin of every
line add up to what has been added to it all along, and nothing is thrown or undefined, if
and only if no value comes to a bin whose sum then exceeds an `int`, and no bin ends before
the constructor has set `initialize_new_bin_`. -/
theorem conserves_iff_fits (T : GraphType) (hT : T.newBin = 0) (lines now : Nat)
    (events : List Event) (hadds : ∀ e ∈ events, ∀ t c, e = .call t c → IsAdd lines c) :
    Always (LiveGraph.step T) Conserves (create T lines now) events ↔
      EachStep (LiveGraph.step T) (Fits T) (create T lines now) events := by
  refine always_iff_eachStep_of (I := Counts lines) (H := fun e => ∀ t c, e = .call t c → IsAdd lines c)
    (fun s h => h.conserves) (fun s e s' h hadds hstep hfits => h.step hT hadds hstep hfits)
    (fun s e s' h hadds hstep hconserves => ?_) (counts_create T lines now) hadds
  cases e with
  | put =>
      intro hfree c (hpending : s.pending = some c) line hline
      obtain ⟨line', hline', hupdate⟩ := h.update hpending
      obtain rfl := Option.some.inj (hline.symm.trans hline')
      simp only [LiveGraph.step, hfree, hpending, hupdate, Option.some.injEq] at hstep
      subst hstep
      exact h.fits hline ⟨hconserves.thrown, hconserves.defined, hconserves.sums⟩
  | turn =>
      obtain ⟨a, ha, hturn⟩ := turn_of_step hstep
      intro n hn
      simp only [closing, ha, Option.bind_some, Option.mem_def, Option.ite_none_right_eq_some] at hn
      obtain ⟨⟨hover, hlt⟩, -⟩ := hn
      cases hturn with
      | close _ _ hinit => exact hinit
      | undefined => exact absurd hconserves.defined (by simp)
      | next _ hge => exact absurd hlt (Nat.not_lt.mpr hge)
      | finish hopen => exact absurd hover (Nat.not_lt.mpr hopen)
  | initializeNewBin => trivial
  | addFirstPoint => trivial
  | call now c => trivial
  | animate now => trivial
  | draw oldest => trivial

theorem conserves_iff_fits_overtaken :
    Always (LiveGraph.step throughputGraph) Conserves (create throughputGraph 1 0)
        (overtaken 500 .addValueNow) ∧
      ((overtaken 500 .addValueNow).foldlM (LiveGraph.step throughputGraph)
        (create throughputGraph 1 0)).map (fun s => s.graph.lines.map total) = some [147] := by
  refine ⟨(conserves_iff_fits throughputGraph rfl 1 0 (overtaken 500 .addValueNow) ?_).mpr
    (by decide +kernel), by decide +kernel⟩
  simp [overtaken, IsAdd, GraphCall.num]

/-! ## Lines that show the greatest value -/

/-- The call is of `set_max_value_now`, for a line that there is, with an amount that is
an `int`. -/
def IsSet (lines : Nat) (c : GraphCall) : Prop :=
  (∃ amount, c = .setMaxValueNow c.num amount) ∧ c.amount < 2 ^ 31 ∧ c.num < lines

theorem IsSet.put {lines : Nat} {c : GraphCall} (h : IsSet lines c) {value : Int}
    (hvalue : value < 2 ^ 31) : c.put value = .ok (max value c.amount) := by
  obtain ⟨⟨amount, hset⟩, hlt, -⟩ := h
  have hamount : c.amount = amount := by
    rw [hset]
    rfl
  have hi32 : ∀ z : Int, 0 ≤ z → z < 2 ^ 31 → i32 z = z := fun z hpos hlt =>
    Int.bmod_eq_of_le (by omega) (by omega)
  rw [hamount] at hlt
  rw [hamount, hset, GraphCall.put]
  split
  · rw [hi32 _ (by omega) (by omega)]
    congr 1
    omega
  · rw [hi32 _ (by omega) (by omega)]

theorem IsSet.put_ok {lines : Nat} {c : GraphCall} (h : IsSet lines c) (value : Int) :
    ∃ value', c.put value = .ok value' := by
  obtain ⟨⟨amount, hset⟩, -⟩ := h
  rw [hset, GraphCall.put]
  split
  · exact ⟨_, rfl⟩
  · exact ⟨_, rfl⟩

/-- What is kept for it. -/
structure Sets (T : GraphType) (first lines : Nat) (s : LiveGraph) : Prop where
  keeps : Keeps T first s
  thrown : s.thrown = none
  count : s.graph.lines.length = lines
  pending : ∀ c ∈ s.pending, IsSet lines c.2
  made : ∀ c ∈ s.made, IsSet lines c.2

theorem length_of_turn (h : Turn T a s s') : s'.graph.lines.length = s.graph.lines.length ∧
    s'.thrown = s.thrown ∧ s'.pending = s.pending ∧ s'.made = s.made := by
  cases h with
  | close => exact ⟨List.length_modify .., rfl, rfl, rfl⟩
  | undefined | next | finish => exact ⟨rfl, rfl, rfl, rfl⟩

theorem Sets.step {lines : Nat} {e : Event} (h : Sets T first lines s)
    (hsets : ∀ t c, e = .call t c → IsSet lines c) (hstep : step T s e = some s')
    (hready : Ready T s e) : Sets T first lines s' := by
  have hkeeps := h.keeps.step hstep hready
  cases e with
  | initializeNewBin =>
      simp only [LiveGraph.step, Option.ite_none_left_eq_some, Option.some.injEq] at hstep
      obtain ⟨-, rfl⟩ := hstep
      exact ⟨hkeeps, h.thrown, h.count, h.pending, h.made⟩
  | addFirstPoint =>
      simp only [LiveGraph.step, Option.ite_none_right_eq_some, Option.some.injEq] at hstep
      obtain ⟨-, rfl⟩ := hstep
      exact ⟨hkeeps, h.thrown, (List.length_modify ..).trans h.count, h.pending, h.made⟩
  | call now c =>
      simp only [LiveGraph.step, Option.ite_none_right_eq_some, Option.some.injEq] at hstep
      obtain ⟨-, rfl⟩ := hstep
      refine ⟨hkeeps, h.thrown, h.count, ?_, h.made⟩
      rintro _ ⟨⟩
      exact hsets now c rfl
  | animate now =>
      simp only [LiveGraph.step, Option.ite_none_right_eq_some, Option.some.injEq] at hstep
      obtain ⟨-, rfl⟩ := hstep
      exact ⟨hkeeps, h.thrown, h.count, h.pending, h.made⟩
  | turn =>
      obtain ⟨a, -, hturn⟩ := turn_of_step hstep
      obtain ⟨hlength, hthrown, hpending, hmade⟩ := length_of_turn hturn
      exact ⟨hkeeps, hthrown.trans h.thrown, hlength.trans h.count, hpending ▸ h.pending,
        hmade ▸ h.made⟩
  | put =>
      simp only [LiveGraph.step] at hstep
      split at hstep
      · next c hfree hpending =>
          have hc := h.pending c hpending
          have hlt : c.2.num < s.graph.lines.length := by
            rw [h.count]
            exact hc.2.2
          obtain ⟨value, hput⟩ := hc.put_ok s.graph.lines[c.2.num].valueThisBin
          rw [update_of_put (List.getElem?_eq_getElem hlt) hput] at hstep
          cases hstep
          refine ⟨hkeeps, h.thrown, List.length_set.trans h.count, by rintro _ ⟨⟩, fun d hd => ?_⟩
          rcases List.mem_append.mp hd with hd | hd
          · exact h.made d hd
          · obtain rfl := List.mem_singleton.mp hd
            exact hc
      · cases hstep
  | draw oldest =>
      simp only [LiveGraph.step, Option.ite_none_right_eq_some, Option.some.injEq] at hstep
      obtain ⟨-, rfl⟩ := hstep
      exact ⟨hkeeps, h.thrown, (List.length_map _).trans h.count, h.pending, h.made⟩

/-- The calls of the link that a run has begun. -/
def calls (events : List Event) : List GraphCall :=
  events.filterMap fun
    | .call _ c => some c
    | _ => none

theorem calls_append (events events' : List Event) :
    calls (events ++ events') = calls events ++ calls events' := List.filterMap_append

theorem made_of_step {e : Event} (hstep : LiveGraph.step T s e = some s')
    (hthrown : s'.thrown = none) : s.thrown = none ∧
      s'.made.map Prod.snd ++ (s'.pending.map Prod.snd).toList
        = s.made.map Prod.snd ++ (s.pending.map Prod.snd).toList ++ calls [e] := by
  cases e with
  | initializeNewBin =>
      simp only [LiveGraph.step, Option.ite_none_left_eq_some, Option.some.injEq] at hstep
      obtain ⟨-, rfl⟩ := hstep
      exact ⟨hthrown, (List.append_nil _).symm⟩
  | addFirstPoint =>
      simp only [LiveGraph.step, Option.ite_none_right_eq_some, Option.some.injEq] at hstep
      obtain ⟨-, rfl⟩ := hstep
      exact ⟨hthrown, (List.append_nil _).symm⟩
  | call now c =>
      simp only [LiveGraph.step, Option.ite_none_right_eq_some, Option.some.injEq] at hstep
      obtain ⟨⟨-, -, hpending, hthrown⟩, rfl⟩ := hstep
      refine ⟨hthrown, ?_⟩
      rw [hpending]
      simp [calls]
  | animate now =>
      simp only [LiveGraph.step, Option.ite_none_right_eq_some, Option.some.injEq] at hstep
      obtain ⟨-, rfl⟩ := hstep
      exact ⟨hthrown, (List.append_nil _).symm⟩
  | turn =>
      obtain ⟨a, -, hturn⟩ := turn_of_step hstep
      obtain ⟨-, hthrown', hpending, hmade⟩ := length_of_turn hturn
      rw [hpending, hmade]
      exact ⟨hthrown'.symm.trans hthrown, (List.append_nil _).symm⟩
  | put =>
      simp only [LiveGraph.step] at hstep
      split at hstep
      · next c _ hpending =>
          split at hstep
          · cases hstep
            cases hthrown
          · cases hstep
            refine ⟨hthrown, ?_⟩
            rw [hpending]
            simp [calls]
      · cases hstep
  | draw oldest =>
      simp only [LiveGraph.step, Option.ite_none_right_eq_some, Option.some.injEq] at hstep
      obtain ⟨-, rfl⟩ := hstep
      exact ⟨hthrown, (List.append_nil _).symm⟩

/-- Unless something is thrown, the calls begun are made, in their order, but for the last. -/
theorem made_of_run : ∀ {events : List Event} {s t : LiveGraph},
    events.foldlM (LiveGraph.step T) s = some t → t.thrown = none →
    s.thrown = none ∧ t.made.map Prod.snd ++ (t.pending.map Prod.snd).toList
      = s.made.map Prod.snd ++ (s.pending.map Prod.snd).toList ++ calls events
  | [], _, _, hrun, hthrown => by
      cases hrun
      exact ⟨hthrown, (List.append_nil _).symm⟩
  | e :: events, s, t, hrun, hthrown => by
      rw [List.foldlM_cons] at hrun
      obtain ⟨s', hstep, hrun⟩ := Option.bind_eq_some_iff.mp hrun
      obtain ⟨hthrown', heq⟩ := made_of_run hrun hthrown
      obtain ⟨hthrown, hmade⟩ := made_of_step hstep hthrown'
      refine ⟨hthrown, ?_⟩
      rw [heq, hmade, List.append_assoc _ (calls [e]), ← calls_append]
      rfl

theorem added_eq (n : Nat) (s : LiveGraph) : added n s
    = (((s.made.map Prod.snd).filter fun c => decide (c.num = n)).map GraphCall.amount).sum := by
  rw [added, List.filter_map, List.map_map]
  rfl

end

end LiveGraph

open LiveGraph

namespace Record

/-- What the `record_*` methods call of the two graphs. -/
def throughputCalls : Record → List GraphCall
  | arrival _ size => [.addValueNow 1 (u32 size)]
  | drop _ _ _ => []
  | opportunity _ size => [.addValueNow 0 (u32 size)]
  | departure _ packet => [.addValueNow 2 (u32 packet.size)]

def delayCalls : Record → List GraphCall
  | departure time packet => [.setMaxValueNow 0 (u32 (sub64 time packet.arrivalTime))]
  | _ => []

/-- What the record adds to line `n` of the graph of throughputs. -/
def countedOn (n : Nat) : Record → Nat
  | arrival _ size => if n = 1 then size else 0
  | drop _ _ _ => 0
  | opportunity _ size => if n = 0 then size else 0
  | departure _ packet => if n = 2 then packet.size else 0

end Record

theorem sum_addValueNow (n num amount : Nat) :
    (([GraphCall.addValueNow num amount].filter fun c => decide (c.num = n)).map
      GraphCall.amount).sum = if n = num then amount else 0 := by
  have hfilter : ([GraphCall.addValueNow num amount].filter fun c => decide (c.num = n))
      = if n = num then [.addValueNow num amount] else [] := by
    simp [List.filter_cons, GraphCall.num, eq_comm]
  rw [hfilter]
  split <;> rfl

theorem u32_of_le_packetSize {n : Nat} (h : n ≤ packetSize) : u32 n = n :=
  u32_of_lt (Nat.lt_of_le_of_lt h (by decide))

theorem sum_throughputCalls (n : Nat) : ∀ {rs : List Record}, (∀ r ∈ rs, r.bytes ≤ packetSize) →
    (((rs.flatMap Record.throughputCalls).filter fun c => decide (c.num = n)).map
      GraphCall.amount).sum = (rs.map (Record.countedOn n)).sum
  | [], _ => rfl
  | r :: rs, h => by
      have hr := h r List.mem_cons_self
      rw [List.flatMap_cons, List.filter_append, List.map_append, List.sum_append, List.map_cons,
        List.sum_cons, sum_throughputCalls n fun r hr => h r (List.mem_cons_of_mem _ hr)]
      congr 1
      cases r with
      | arrival t size =>
          have hsize : u32 size = size := u32_of_le_packetSize hr
          rw [Record.throughputCalls, hsize, sum_addValueNow, Record.countedOn]
      | drop t packets bytes => rfl
      | opportunity t size =>
          have hsize : u32 size = size := u32_of_le_packetSize hr
          rw [Record.throughputCalls, hsize, sum_addValueNow, Record.countedOn]
      | departure t p =>
          have hsize : u32 p.size = p.size := u32_of_le_packetSize hr
          rw [Record.throughputCalls, hsize, sum_addValueNow, Record.countedOn]

theorem isAdd_throughputCalls (r : Record) : ∀ c ∈ r.throughputCalls, IsAdd 3 c := by
  cases r with
  | arrival t size => simp [Record.throughputCalls, IsAdd, GraphCall.num]
  | drop t packets bytes => simp [Record.throughputCalls]
  | opportunity t size => simp [Record.throughputCalls, IsAdd, GraphCall.num]
  | departure t p => simp [Record.throughputCalls, IsAdd, GraphCall.num]

namespace LinkQueue

variable {tr : Trace} {W : Arith}

/-- **The graph of throughputs agrees with the link.** In every run of the link, over any
trace and with any discipline, and every run of the two threads in which the calls are those
of its records: as long as the bins have room and none ends before the constructor has set
`initialize_new_bin_`, the three lines add up to the room of the opportunities, the bytes
that have arrived and the bytes that have departed, and the last of them does not exceed
the first. -/
theorem live_graph_agrees (tr : Trace) (W : Arith) (start : Nat) (t : QueueType)
    (world : Nat → Env) (calls : List LinkCall) (written : List Bytes)
    (q : LinkQueue tr (PacketQueue W))
    (hrun : run world calls (initial tr (getPacketQueue W start t) start) = .ok (written, q))
    (now : Nat) (events : List LiveGraph.Event) (s : LiveGraph)
    (hthreads : events.foldlM (step throughputGraph) (create throughputGraph 3 now) = some s)
    (hcalls : LiveGraph.calls events = q.records.flatMap Record.throughputCalls)
    (hdone : s.pending = none)
    (hfits : EachStep (step throughputGraph) (Fits throughputGraph) (create throughputGraph 3 now)
      events) :
    ∃ opportunities arrivals departures, s.graph.lines = [opportunities, arrivals, departures] ∧
      total opportunities = room q.records ∧ total arrivals = q.arrivedBytes ∧
      total departures = carried q.records ∧ total departures ≤ total opportunities := by
  have hkeeps := (keeps_initial tr W t start).run calls hrun
  have hadds : ∀ e ∈ events, ∀ t c, e = .call t c → IsAdd 3 c := by
    rintro _ he t c rfl
    have hc : c ∈ LiveGraph.calls events := List.mem_filterMap.mpr ⟨_, he, rfl⟩
    rw [hcalls] at hc
    obtain ⟨r, -, hr⟩ := List.mem_flatMap.mp hc
    exact isAdd_throughputCalls r c hr
  have hcounts : Counts 3 s := invariant_of_eachStep (I := Counts 3)
    (fun s e s' h hstep hG => h.step rfl hG.1 hstep hG.2) (counts_create ..)
    ((eachStep_of_forall hadds).and hfits) hthreads
  obtain ⟨-, hmade⟩ := made_of_run hthreads hcounts.conserves.thrown
  have hadded : ∀ n, added n s = (q.records.map (Record.countedOn n)).sum := by
    intro n
    rw [hdone] at hmade
    have hmade : s.made.map Prod.snd = q.records.flatMap Record.throughputCalls := by
      simpa [create, hcalls] using hmade
    rw [added_eq, hmade, sum_throughputCalls n hkeeps.records]
  have hcounted : ∀ (n : Nat) (count : Record → Nat), (∀ r, Record.countedOn n r = count r) →
      added n s = (q.records.map count).sum := by
    intro n count hcount
    rw [hadded, List.map_congr_left fun r _ => hcount r]
  have hroom : added 0 s = room q.records := hcounted 0 _ fun r => by cases r <;> rfl
  have harrived : added 1 s = q.arrivedBytes := hcounted 1 _ fun r => by cases r <;> rfl
  have hcarried : added 2 s = carried q.records := hcounted 2 _ fun r => by cases r <;> rfl
  obtain ⟨opportunities, arrivals, departures, hlines⟩ := List.length_eq_three.mp hcounts.count
  have hsums := hcounts.conserves.sums
  rw [hlines] at hsums
  have htotal₀ := hsums 0 opportunities rfl
  have htotal₁ := hsums 1 arrivals rfl
  have htotal₂ := hsums 2 departures rfl
  rw [hroom] at htotal₀
  rw [harrived] at htotal₁
  rw [hcarried] at htotal₂
  have hle := hkeeps.log.totals q.records (List.prefix_refl _)
  exact ⟨opportunities, arrivals, departures, hlines, htotal₀, htotal₁, htotal₂, by omega⟩

/-- What the run of `threePackets` calls, while the other thread draws now and then. -/
def threePacketsDrawn : List LiveGraph.Event :=
  [.initializeNewBin, .addFirstPoint, .animate 0, .turn, .addFirstPoint, .addFirstPoint,
    .call 0 (.addValueNow 1 1000), .turn, .put, .call 0 (.addValueNow 1 1000), .turn, .put,
    .call 0 (.addValueNow 1 1000), .turn, .put, .call 120 (.addValueNow 0 1504), .turn, .put,
    .call 120 (.addValueNow 2 1000), .turn, .put, .call 499 (.addValueNow 0 1504), .turn,
    .animate 501, .turn, .turn, .turn, .turn, .turn, .put,
    .call 502 (.addValueNow 2 1000), .draw (-4000), .turn, .put,
    .call 502 (.addValueNow 2 1000), .turn, .put]

theorem live_graph_agrees_threePackets :
    ∃ written q s, run (fun _ => ⟨0, 0, 0⟩) threePackets
        (initial twoOpportunities (getPacketQueue .machine 0 (.droptail ⟨9, 0⟩)) 0)
          = .ok (written, q) ∧
      threePacketsDrawn.foldlM (step throughputGraph) (create throughputGraph 3 0) = some s ∧
      ∃ opportunities arrivals departures, s.graph.lines = [opportunities, arrivals, departures] ∧
        total arrivals = q.arrivedBytes ∧ total departures = carried q.records ∧
          total departures ≤ total opportunities := by
  have hrun : ((run (fun _ => ⟨0, 0, 0⟩) threePackets
      (initial twoOpportunities (getPacketQueue .machine 0 (.droptail ⟨9, 0⟩)) 0)).toOption.map
        fun r => r.2.records.flatMap Record.throughputCalls)
          = some (LiveGraph.calls threePacketsDrawn) := by
    decide +kernel
  have hthreads : ((threePacketsDrawn.foldlM (step throughputGraph)
      (create throughputGraph 3 0)).map LiveGraph.pending) = some none := by
    decide +kernel
  obtain ⟨s, hs, hdone⟩ := Option.map_eq_some_iff.mp hthreads
  cases h : run (fun _ => ⟨0, 0, 0⟩) threePackets
      (initial twoOpportunities (getPacketQueue .machine 0 (.droptail ⟨9, 0⟩)) 0) with
  | error e =>
      rw [h] at hrun
      cases hrun
  | ok r =>
      rw [h] at hrun
      have hcalls := (Option.some.inj hrun).symm
      obtain ⟨opportunities, arrivals, departures, hlines, -, harrivals, hdepartures, hle⟩ :=
        live_graph_agrees twoOpportunities .machine 0 (.droptail ⟨9, 0⟩) (fun _ => ⟨0, 0, 0⟩)
          threePackets r.1 r.2 h 0 threePacketsDrawn s hs hcalls hdone (by decide +kernel)
      exact ⟨r.1, r.2, s, rfl, hs, opportunities, arrivals, departures, hlines, harrivals,
        hdepartures, hle⟩

end LinkQueue

end Mahimahi
