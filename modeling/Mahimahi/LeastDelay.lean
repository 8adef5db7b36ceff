import Mathlib.Algebra.Order.Group.Defs
import Mathlib.Algebra.Order.Group.Basic
import Mathlib.Data.List.AList
import Mathlib.Order.Bounds.Basic
import Mathlib.Tactic.Abel

/-!
# The least delay from a time on

A trip has a start and an end. From a time on, the least delay is how long it takes to
the end of some trip that starts then or later (`delaysFrom`). Where no trip overtakes
another, the trips that start at the time itself decide (`isLeast_of_sample`); where none
does, the delay is that of the next time at which one may, and the wait for it
(`isLeast_of_next`). So it can be computed backwards over the times from a table with the
least delay of the trips that start at each time (`Samples`).
-/

namespace Mahimahi

section

variable {K : Type*} [LinearOrder K] [AddCommGroup K]

/-- How long it takes from `t` to the end of each trip that starts at `t` or later. -/
def delaysFrom (trips : List (K × K)) (t : K) : Set K := {x | ∃ p ∈ trips, t ≤ p.1 ∧ x = p.2 - t}

/-- The same for the trips that start at `t`. -/
def delaysAt (trips : List (K × K)) (t : K) : Set K := {x | ∃ p ∈ trips, p.1 = t ∧ x = p.2 - t}

/-- The trips in an order in which neither the starts nor the ends go back. -/
def NoOvertaking (trips : List (K × K)) : Prop := trips.Pairwise fun p q => p.1 ≤ q.1 ∧ p.2 ≤ q.2

variable {trips : List (K × K)} {t d wait : K}

omit [AddCommGroup K] in
/-- A trip that starts earlier ends no later. -/
theorem NoOvertaking.end_le (h : NoOvertaking trips) {p q : K × K} (hp : p ∈ trips) (hq : q ∈ trips)
    (hlt : p.1 < q.1) : p.2 ≤ q.2 := by
  obtain ⟨i, hi, rfl⟩ := List.getElem_of_mem hp
  obtain ⟨j, hj, rfl⟩ := List.getElem_of_mem hq
  rcases Nat.lt_trichotomy i j with hij | rfl | hji
  · exact (List.pairwise_iff_getElem.mp h i j hi hj hij).2
  · exact absurd hlt (lt_irrefl _)
  · exact absurd (List.pairwise_iff_getElem.mp h j i hj hi hji).1 (not_le.mpr hlt)

theorem isLeast_of_sample [IsOrderedAddMonoid K] (h : NoOvertaking trips) (hd : IsLeast (delaysAt trips t) d) :
    IsLeast (delaysFrom trips t) d := by
  obtain ⟨⟨p, hp, hstart, rfl⟩, hleast⟩ := hd
  refine ⟨⟨p, hp, hstart.ge, rfl⟩, ?_⟩
  rintro x ⟨q, hq, hlate, rfl⟩
  rcases hlate.lt_or_eq with hlt | heq
  · exact sub_le_sub_right (h.end_le hp hq (hstart ▸ hlt)) t
  · exact hleast ⟨q, hq, heq.symm, rfl⟩

theorem isLeast_of_next [IsOrderedAddMonoid K] (hwait : 0 ≤ wait) (hnone : ∀ p ∈ trips, t ≤ p.1 → t + wait ≤ p.1)
    (hd : IsLeast (delaysFrom trips (t + wait)) d) : IsLeast (delaysFrom trips t) (d + wait) := by
  obtain ⟨⟨p, hp, hstart, rfl⟩, hleast⟩ := hd
  refine ⟨⟨p, hp, (le_add_of_nonneg_right hwait).trans hstart, by abel⟩, ?_⟩
  rintro x ⟨q, hq, hlate, rfl⟩
  have hle := hleast ⟨q, hq, hnone q hq hlate, rfl⟩
  rw [← le_sub_iff_add_le, sub_sub]
  exact hle

/-! ## Samples -/

/-- The smaller one, if there is another. -/
def leastWith (d : K) : Option K → K
  | none => d
  | some e => min d e

/-- A table with the least delay for each time at which a trip starts. -/
structure Samples (trips : List (K × K)) (samples : AList fun _ : K => K) : Prop where
  none : ∀ t, samples.lookup t = none → ∀ p ∈ trips, p.1 ≠ t
  least : ∀ t d, samples.lookup t = some d → IsLeast (delaysAt trips t) d

theorem samples_empty : Samples ([] : List (K × K)) ∅ where
  none := by simp
  least t d h := by simp at h

theorem Samples.mem_keys {samples : AList fun _ : K => K} (h : Samples trips samples) :
    t ∈ samples.keys ↔ ∃ p ∈ trips, p.1 = t := by
  rw [← AList.mem_keys]
  cases hlookup : samples.lookup t with
  | none =>
      have hnot : t ∉ samples := AList.lookup_eq_none.mp hlookup
      refine iff_of_false hnot ?_
      rintro ⟨p, hp, hstart⟩
      exact h.none t hlookup p hp hstart
  | some d =>
      have hmem : t ∈ samples := AList.lookup_isSome.mp (by rw [hlookup]; rfl)
      obtain ⟨⟨p, hp, hstart, -⟩, -⟩ := h.least t d hlookup
      exact iff_of_true hmem ⟨p, hp, hstart⟩

omit [LinearOrder K] in
theorem delaysAt_append (trips trips' : List (K × K)) (t : K) :
    delaysAt (trips ++ trips') t = delaysAt trips t ∪ delaysAt trips' t := by
  ext x
  simp only [delaysAt, List.mem_append, Set.mem_ofPred_eq, Set.mem_union, or_and_right, exists_or]

omit [LinearOrder K] in
theorem delaysAt_singleton [DecidableEq K] (start stop t : K) :
    delaysAt [(start, stop)] t = if start = t then {stop - start} else ∅ := by
  ext x
  split
  · next heq =>
      subst heq
      simp [delaysAt]
  · next hne => simp [delaysAt, hne]

theorem Samples.insert {samples : AList fun _ : K => K} (h : Samples trips samples) (start stop : K) :
    Samples (trips ++ [(start, stop)])
      (samples.insert start (leastWith (stop - start) (samples.lookup start))) where
  none t ht := by
    rw [AList.lookup_insert_eq_none] at ht
    obtain ⟨hne, hnone⟩ := ht
    intro p hp
    rcases List.mem_append.mp hp with hp | hp
    · exact h.none t hnone p hp
    · rw [List.mem_singleton.mp hp]
      exact fun heq => hne heq.symm
  least t d hd := by
    rw [delaysAt_append, delaysAt_singleton]
    by_cases heq : start = t
    · subst heq
      rw [AList.lookup_insert] at hd
      cases hd
      rw [if_pos rfl]
      cases hlookup : samples.lookup start with
      | none =>
          have hempty : delaysAt trips start = ∅ := by
            ext x
            simp only [delaysAt, Set.mem_ofPred_eq, Set.mem_empty_iff_false, iff_false]
            rintro ⟨p, hp, hstart, -⟩
            exact h.none start hlookup p hp hstart
          rw [hempty, Set.empty_union]
          exact isLeast_singleton
      | some e =>
          rw [leastWith, min_comm]
          exact (h.least start e hlookup).union isLeast_singleton
    · rw [AList.lookup_insert_ne (Ne.symm heq)] at hd
      rw [if_neg heq, Set.union_empty]
      exact h.least t d hd

end

end Mahimahi
