import Mathlib.Algebra.Order.Group.Nat
import Mahimahi.Loop
import Mahimahi.Machine

/-!
# Catching up with a timer

Without a timer, a component can keep the time up to which it is up to date, and
make the updates that it has missed whenever it is called: `catchUp` is the loop
that does so, one period at a time, as long as more than a period has passed.

The loop is a number of steps, and the number is known beforehand (`missed`,
`catchUp_eq_steps`), whatever a step does to the rest of the state. So calls at
several times come to what one call at the last of them does: the numbers add up
(`missed_add`, `foldlM_catchUp`).
-/

namespace Mahimahi

variable {ε σ : Type*}

/-- `n` steps in a row. -/
def steps (step : σ → Except ε σ) : Nat → σ → Except ε σ
  | 0, s => .ok s
  | n + 1, s => step s >>= steps step n

theorem steps_add (step : σ → Except ε σ) (m n : Nat) (s : σ) :
    steps step (m + n) s = steps step m s >>= steps step n := by
  induction m generalizing s with
  | zero => rw [Nat.zero_add]; rfl
  | succ m ih =>
      rw [Nat.succ_add, steps, steps]
      cases step s with
      | error e => rfl
      | ok s' => exact ih s'

/-- A step, where it succeeds, moves the state `period` ahead. -/
structure Periodic (step : σ → Except ε σ) (last : σ → Nat) (period : Nat) : Prop where
  pos : 0 < period
  last_step : ∀ {s s' : σ}, step s = .ok s' → last s' = u64 (last s + period)

/-- How many periods after `start` end before the time `now`. -/
def missed (period start now : Nat) : Nat := (now - start - 1) / period

/-- More than a period has passed. -/
def isBehind (last : σ → Nat) (period now : Nat) (s : σ) : Bool :=
  decide (period < sub64 now (last s))

/-- Take steps until no more than a period is left. -/
def catchUp (stuck : ε) (step : σ → Except ε σ) (last : σ → Nat) (period now : Nat) (s : σ) :
    Except ε σ :=
  loop stuck (whileDo (isBehind last period now) step) (sub64 now (last s) / period + 1) s

/-! ## The number of steps -/

variable {period start now t : Nat}

theorem missed_le_iff (hpos : 0 < period) (m : Nat) :
    missed period start now ≤ m ↔ now - (start + period * m) ≤ period := by
  have hlt : missed period start now < m + 1 ↔ now - start - 1 < (m + 1) * period :=
    Nat.div_lt_iff_lt_mul hpos
  have hmul : (m + 1) * period = period * m + period := by
    rw [Nat.mul_comm, Nat.mul_succ]
  rw [hmul] at hlt
  omega

theorem missed_mono (period start : Nat) (h : t ≤ now) :
    missed period start t ≤ missed period start now := Nat.div_le_div_right (by omega)

theorem add_missed_le (h : start ≤ now) : start + period * missed period start now ≤ now := by
  have := Nat.mul_div_le (now - start - 1) period
  simp only [missed]
  omega

theorem missed_add (period start : Nat) (h : t ≤ now) :
    missed period start t + missed period (start + period * missed period start t) now
      = missed period start now := by
  have hsub : missed period (start + period * missed period start t) now
      = missed period start now - missed period start t := by
    have hsame : now - (start + period * missed period start t) - 1
        = now - start - 1 - period * missed period start t := by omega
    rw [missed, hsame, Nat.sub_mul_div]
    rfl
  have := missed_mono period start h
  omega

section

variable {stuck : ε} {step : σ → Except ε σ} {last : σ → Nat}

theorem isBehind_eq_true {s : σ} (hle : last s ≤ now) :
    isBehind last period now s = true ↔ period < now - last s := by
  rw [isBehind, sub64_of_le hle, decide_eq_true_iff]

theorem Periodic.last_le (h : Periodic step last period) (hnow : now < 2 ^ 64) {s s' : σ}
    (hle : last s ≤ now) (hbehind : isBehind last period now s = true) (hs : step s = .ok s') :
    last s' = last s + period ∧ last s' ≤ now := by
  have hlt := (isBehind_eq_true hle).mp hbehind
  have hlast : last s' = last s + period := by
    rw [h.last_step hs]
    exact u64_of_lt (by omega)
  exact ⟨hlast, by omega⟩

theorem loop_eq_steps (h : Periodic step last period) (hnow : now < 2 ^ 64) :
    ∀ (n fuel : Nat) {s : σ}, last s ≤ now → missed period (last s) now = n → n < fuel →
    loop stuck (whileDo (isBehind last period now) step) fuel s = steps step n s
  | _, 0, _, _, _, hfuel => absurd hfuel (Nat.not_lt_zero _)
  | 0, fuel + 1, s, hle, hn, _ => by
      have hzero := (missed_le_iff h.pos 0).mp (Nat.le_of_eq hn)
      have hdone : isBehind last period now s = false := by
        rw [← Bool.not_eq_true, isBehind_eq_true hle]
        simpa using hzero
      rw [loop, whileDo_leave.mpr ⟨hdone, rfl⟩, steps]
  | n + 1, fuel + 1, s, hle, hn, hfuel => by
      have hbehind : isBehind last period now s = true := by
        rw [isBehind_eq_true hle]
        have hzero := @missed_le_iff period (last s) now h.pos 0
        simp only [Nat.mul_zero, Nat.add_zero] at hzero
        omega
      rw [loop, steps]
      cases hs : step s with
      | error e => rw [whileDo_error.mpr ⟨hbehind, hs⟩]; rfl
      | ok s' =>
          rw [whileDo_again.mpr ⟨hbehind, hs⟩]
          obtain ⟨hlast, hle'⟩ := h.last_le hnow hle hbehind hs
          refine loop_eq_steps h hnow n fuel hle' ?_ (by omega)
          have hone : now - last s' - 1 = now - last s - 1 - period * 1 := by omega
          have hmissed : missed period (last s') now = missed period (last s) now - 1 := by
            rw [missed, hone, Nat.sub_mul_div]
            rfl
          omega

theorem catchUp_eq_steps (h : Periodic step last period) (hnow : now < 2 ^ 64) {s : σ}
    (hle : last s ≤ now) :
    catchUp stuck step last period now s = steps step (missed period (last s) now) s := by
  refine loop_eq_steps h hnow _ _ hle rfl ?_
  rw [sub64_of_le hle]
  exact Nat.lt_succ_of_le (Nat.div_le_div_right (by omega))

/-- Wherever the loop makes its test, the difference is one of times in order. -/
theorem Periodic.last_le_of_visits (h : Periodic step last period) (hnow : now < 2 ^ 64) {s t : σ}
    (hv : Visits (whileDo (isBehind last period now) step) s t) (hle : last s ≤ now) :
    last t ≤ now := by
  induction hv with
  | refl => exact hle
  | again hb _ ih =>
      obtain ⟨hbehind, hs⟩ := whileDo_again.mp hb
      exact ih (h.last_le hnow hle hbehind hs).2

theorem Periodic.last_steps (h : Periodic step last period) : ∀ {n : Nat} {s s' : σ},
    steps step n s = .ok s' → last s + period * n < 2 ^ 64 → last s' = last s + period * n
  | 0, s, s', hs, _ => by
      cases hs
      rfl
  | n + 1, s, s', hs, hlt => by
      rw [Nat.mul_succ] at hlt ⊢
      rw [steps] at hs
      cases hone : step s with
      | error e =>
          rw [hone] at hs
          cases hs
      | ok s₁ =>
          rw [hone] at hs
          have hlast : last s₁ = last s + period := by
            rw [h.last_step hone]
            exact u64_of_lt (by omega)
          rw [h.last_steps hs (by omega), hlast]
          omega

/-- A call that returns leaves no more than a period. -/
theorem catchUp_spec (h : Periodic step last period) (hnow : now < 2 ^ 64) {s s' : σ}
    (hle : last s ≤ now) (hs : catchUp stuck step last period now s = .ok s') :
    last s' = last s + period * missed period (last s) now ∧ last s' ≤ now ∧
      now - last s' ≤ period := by
  rw [catchUp_eq_steps h hnow hle] at hs
  have hbound : last s + period * missed period (last s) now ≤ now := add_missed_le hle
  have hlast := h.last_steps hs (by omega)
  have hleft := (missed_le_iff h.pos _).mp (Nat.le_refl (missed period (last s) now))
  exact ⟨hlast, by omega, by omega⟩

/-! ## Several calls -/

theorem catchUp_catchUp (h : Periodic step last period) (hnow : now < 2 ^ 64) {s : σ}
    (hle : last s ≤ t) (ht : t ≤ now) :
    catchUp stuck step last period t s >>= catchUp stuck step last period now
      = catchUp stuck step last period now s := by
  have ht' : t < 2 ^ 64 := Nat.lt_of_le_of_lt ht hnow
  cases hs : catchUp stuck step last period t s with
  | error e =>
      rw [catchUp_eq_steps h ht' hle] at hs
      rw [catchUp_eq_steps h hnow (Nat.le_trans hle ht), ← missed_add period (last s) ht,
        steps_add, hs]
      rfl
  | ok s₁ =>
      obtain ⟨hlast, hle₁, -⟩ := catchUp_spec h ht' hle hs
      rw [catchUp_eq_steps h ht' hle] at hs
      rw [catchUp_eq_steps h hnow (Nat.le_trans hle ht), ← missed_add period (last s) ht,
        steps_add, hs,
        ← hlast]
      exact catchUp_eq_steps h hnow (Nat.le_trans hle₁ ht)

/-- Calls at times in order come to the call at the last of them. -/
theorem foldlM_catchUp (h : Periodic step last period) : ∀ {ts : List Nat} {s : σ}
    (hne : ts ≠ []), (last s :: ts).Pairwise (· ≤ ·) → ts.getLast hne < 2 ^ 64 →
    ts.foldlM (fun s t => catchUp stuck step last period t s) s
      = catchUp stuck step last period (ts.getLast hne) s
  | [], _, hne, _, _ => absurd rfl hne
  | [t], s, _, _, _ => by
      rw [List.foldlM_cons, List.getLast_singleton]
      cases catchUp stuck step last period t s <;> rfl
  | t :: t' :: ts, s, _, hsorted, hlt => by
      have hne : t' :: ts ≠ [] := List.cons_ne_nil _ _
      obtain ⟨hle, hrest⟩ := List.pairwise_cons.mp hsorted
      have hlast : t ≤ (t' :: ts).getLast hne :=
        (List.pairwise_cons.mp hrest).1 _ (List.getLast_mem hne)
      have hle' : last s ≤ t := hle t List.mem_cons_self
      rw [List.getLast_cons hne] at hlt ⊢
      rw [List.foldlM_cons, ← catchUp_catchUp h hlt hle' hlast]
      cases hs : catchUp stuck step last period t s with
      | error e => rfl
      | ok s₁ =>
          obtain ⟨-, hle₁, -⟩ := catchUp_spec h (Nat.lt_of_le_of_lt hlast hlt) hle' hs
          refine foldlM_catchUp h hne (List.pairwise_cons.mpr ⟨fun u hu => ?_, hrest.of_cons⟩) hlt
          exact Nat.le_trans hle₁ ((List.pairwise_cons.mp hrest).1 u hu)

end

end Mahimahi
