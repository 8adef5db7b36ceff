import Mahimahi.Pie

/-!
# Catch-up of the PIE queue, whatever doubles are

`calculate_drop_prob` reads the clock and the queue, and its own variables. It
counts the periods by `last_update_` alone, so how often it is called makes no
difference, and that does not depend on what the arithmetic on `drop_prob_` does:
here `double` is any type, with any operations (`Double`). With the rationals in
their place the queue is the one of `Pie` (`updateStep_exact`).
-/

namespace Mahimahi

/-- An interpretation of `double`: its literals, the conversion from `int`, and the
operations that `calculate_drop_prob` uses. -/
structure Double where
  Value : Type
  literal : ℚ → Value
  ofInt : Int → Value
  add : Value → Value → Value
  mul : Value → Value → Value
  div : Value → Value → Value
  lt : Value → Value → Bool
  eq : Value → Value → Bool

/-- Doubles as exact rationals. -/
def Double.exact : Double where
  Value := ℚ
  literal r := r
  ofInt z := z
  add := (· + ·)
  mul := (· * ·)
  div := (· / ·)
  lt a b := decide (a < b)
  eq a b := decide (a = b)

/-- `PIEPacketQueue`, over an interpretation of `double`. -/
structure PIEWith (F : Double) (W : Arith) where
  base : DroppingPacketQueue W
  qdelayRef : Nat
  maxBurst : Nat
  dropProb : F.Value
  burstAllowance : Nat
  qdelayOld : Nat
  currentQdelay : Nat
  dqCount : Nat
  dqTstamp : Nat
  avgDqRate : Nat
  lastUpdate : Nat

namespace PIEWith

open PIEPacketQueue (alpha beta tUpdate dqCountInvalid)

variable {F : Double} {W : Arith}

/-- What `p` is divided by, given the drop probability. -/
def scale (dropProb : F.Value) : F.Value :=
  if F.lt dropProb (F.literal (1 / 100)) then F.literal 128
  else if F.lt dropProb (F.literal (1 / 10)) then F.literal 32
  else F.literal 16

/-- The reset at the end of an update. -/
def clearIfIdle (q : PIEWith F W) : PIEWith F W :=
  if F.eq q.dropProb (F.literal 0) = true ∧ q.currentQdelay < q.qdelayRef / 2
      ∧ q.qdelayOld < q.qdelayRef / 2 ∧ 0 < q.avgDqRate then
    { q with dqCount := dqCountInvalid, avgDqRate := 0, burstAllowance := q.maxBurst }
  else q

/-- What is added to the drop probability, given the delay that an update finds and
the one before. -/
def correction (dropProb : F.Value) (qdelayRef currentQdelay qdelayOld : Nat) : F.Value :=
  F.div
    (F.add (F.mul (F.literal alpha) (F.ofInt (i32 (sub32 currentQdelay qdelayRef))))
      (F.mul (F.literal beta) (F.ofInt (i32 (sub32 currentQdelay qdelayOld)))))
    (scale dropProb)

/-- What becomes of the sum: it is clamped, and decays while nothing is delayed. -/
def settle (sum : F.Value) (currentQdelay qdelayOld sizeBytes : Nat) : F.Value :=
  let below := F.lt sum (F.literal 0)
  let above := !below && F.lt (F.literal 1) sum
  let clamped := if below then F.literal 0 else if above then F.literal 1 else sum
  let updateProb := decide (¬ (currentQdelay = 0 ∧ sizeBytes ≠ 0)) && !above
  if currentQdelay = 0 ∧ qdelayOld = 0 ∧ updateProb = true then F.mul clamped (F.literal (98 / 100))
  else clamped

/-- The body of the loop in `calculate_drop_prob`. -/
def updateStep (q : PIEWith F W) : Except Fault (PIEWith F W) := do
  let sizeBytes ← q.base.sizeBytes
  let qdelayOld := q.currentQdelay
  let currentQdelay := if 0 < q.avgDqRate then sizeBytes / q.avgDqRate else 0
  return clearIfIdle { q with
    qdelayOld := qdelayOld
    currentQdelay := currentQdelay
    dropProb := settle (F.add q.dropProb (correction q.dropProb q.qdelayRef currentQdelay qdelayOld))
      currentQdelay qdelayOld sizeBytes
    burstAllowance := (max 0 (i32 (i32 q.burstAllowance - tUpdate))).toNat
    lastUpdate := u64 (q.lastUpdate + tUpdate) }

/-- `now - last_update_ > t_update_`. -/
def updateDue (now : Nat) (q : PIEWith F W) : Bool := decide (tUpdate < sub64 now q.lastUpdate)

def calculateDropProb (now : Nat) (q : PIEWith F W) : Except Fault (PIEWith F W) :=
  loop .diverges (whileDo (updateDue now) updateStep) (sub64 now q.lastUpdate / tUpdate + 1) q

/-! ## The queue over the rationals -/

def ofExact (q : PIEPacketQueue W) : PIEWith .exact W where
  base := q.base
  qdelayRef := q.qdelayRef
  maxBurst := q.maxBurst
  dropProb := q.dropProb
  burstAllowance := q.burstAllowance
  qdelayOld := q.qdelayOld
  currentQdelay := q.currentQdelay
  dqCount := q.dqCount
  dqTstamp := q.dqTstamp
  avgDqRate := q.avgDqRate
  lastUpdate := q.lastUpdate

theorem scale_exact (dropProb : ℚ) :
    scale (F := .exact) dropProb = PIEPacketQueue.scale dropProb := by
  simp [scale, PIEPacketQueue.scale, Double.exact]

theorem clearIfIdle_exact (q : PIEPacketQueue W) :
    (ofExact q).clearIfIdle = ofExact q.clearIfIdle := by
  have heq : Double.exact.eq (ofExact q).dropProb (Double.exact.literal 0) = true ↔ q.dropProb = 0 :=
    decide_eq_true_iff (p := q.dropProb = 0)
  by_cases hidle : q.dropProb = 0 ∧ q.currentQdelay < q.qdelayRef / 2 ∧
      q.qdelayOld < q.qdelayRef / 2 ∧ 0 < q.avgDqRate
  · rw [PIEPacketQueue.clearIfIdle, if_pos hidle]
    exact if_pos ⟨heq.mpr hidle.1, hidle.2⟩
  · rw [PIEPacketQueue.clearIfIdle, if_neg hidle]
    exact if_neg fun h => hidle ⟨heq.mp h.1, h.2⟩

theorem correction_exact (dropProb : ℚ) (qdelayRef currentQdelay qdelayOld : Nat) :
    correction (F := .exact) dropProb qdelayRef currentQdelay qdelayOld
      = ((alpha * i32 (sub32 currentQdelay qdelayRef)
        + beta * i32 (sub32 currentQdelay qdelayOld)) / PIEPacketQueue.scale dropProb : ℚ) := by
  unfold correction
  rw [scale_exact]
  rfl

/-- A sum below 0 is not above 1, so the second test of the clamping may as well
be made by itself. -/
theorem settle_exact (sum : ℚ) (currentQdelay qdelayOld sizeBytes : Nat) :
    (settle (F := .exact) sum currentQdelay qdelayOld sizeBytes : ℚ) =
      let clamped : ℚ := if sum < 0 then 0 else if 1 < sum then 1 else sum
      let updateProb := decide (¬ (currentQdelay = 0 ∧ sizeBytes ≠ 0)) && decide (¬ 1 < sum)
      if currentQdelay = 0 ∧ qdelayOld = 0 ∧ updateProb = true then clamped * (98 / 100)
      else clamped := by
  have hbelow : Double.exact.lt sum (Double.exact.literal 0) = decide (sum < 0) := rfl
  have habove : Double.exact.lt (Double.exact.literal 1) sum = decide (1 < sum) := rfl
  unfold settle
  rw [hbelow, habove]
  by_cases hneg : sum < 0
  · have hle : ¬ 1 < sum := fun h => absurd (h.trans hneg) (by norm_num)
    simp only [hneg, hle, decide_true, decide_false, Bool.not_true, Bool.false_and, if_true]
    rfl
  · by_cases hone : 1 < sum
    · simp only [hneg, hone, decide_true, decide_false, Bool.not_false, Bool.true_and, if_true,
        Bool.false_eq_true, if_false]
      rfl
    · simp only [hneg, hone, decide_false, Bool.not_false, Bool.true_and, Bool.false_eq_true, if_false]
      rfl

theorem updateStep_exact (q : PIEPacketQueue W) :
    (ofExact q).updateStep = ofExact <$> q.updateStep := by
  unfold updateStep PIEPacketQueue.updateStep
  cases hsize : q.base.sizeBytes with
  | error e =>
      have hsize' : (ofExact q).base.sizeBytes = .error e := hsize
      rw [hsize']
      rfl
  | ok sizeBytes =>
      have hsize' : (ofExact q).base.sizeBytes = .ok sizeBytes := hsize
      have hsum : ∀ currentQdelay : Nat, Double.exact.add q.dropProb
          (correction (F := .exact) q.dropProb q.qdelayRef currentQdelay q.currentQdelay)
            = (q.dropProb + (alpha * i32 (sub32 currentQdelay q.qdelayRef)
              + beta * i32 (sub32 currentQdelay q.currentQdelay))
              / PIEPacketQueue.scale q.dropProb : ℚ) :=
        fun currentQdelay => congrArg (q.dropProb + ·) (correction_exact ..)
      rw [hsize', ok_bind, ok_bind]
      refine congrArg Except.ok (Eq.trans ?_ (clearIfIdle_exact _))
      refine congrArg clearIfIdle ?_
      simp only [ofExact]
      congr 1
      rw [hsum]
      exact settle_exact ..

/-- With the rationals for doubles, `calculate_drop_prob` is that of the queue. -/
theorem calculateDropProb_exact (now : Nat) (q : PIEPacketQueue W) :
    (ofExact q).calculateDropProb now = ofExact <$> q.calculateDropProb now := by
  refine loop_map (fun s => ?_) _ q
  have hdue : updateDue now (ofExact s) = PIEPacketQueue.updateDue now s := rfl
  rw [whileDo, whileDo, hdue, updateStep_exact]
  split
  · cases s.updateStep <;> rfl
  · rfl

/-! ## How often it is called makes no difference -/

variable {q q' : PIEWith F W} {now : Nat}

theorem clearIfIdle_frame (q : PIEWith F W) :
    q.clearIfIdle.lastUpdate = q.lastUpdate ∧ q.clearIfIdle.base = q.base := by
  unfold clearIfIdle
  split <;> exact ⟨rfl, rfl⟩

theorem updateStep_frame (h : q.updateStep = .ok q') :
    q'.lastUpdate = u64 (q.lastUpdate + tUpdate) ∧ q'.base = q.base := by
  obtain ⟨n, -, h⟩ := bind_eq_ok.mp h
  cases h
  exact clearIfIdle_frame _

theorem updateStep_error {e : Fault} (h : q.updateStep = .error e) : q.base.sizeBytes = .error e := by
  unfold updateStep at h
  cases hsize : q.base.sizeBytes with
  | error e' =>
      rw [hsize, error_bind] at h
      cases h
      rfl
  | ok n =>
      rw [hsize] at h
      cases h

theorem periodic_updateStep : Periodic (updateStep (F := F) (W := W)) lastUpdate tUpdate :=
  ⟨by decide, fun h => (updateStep_frame h).1⟩

/-- An update fails only where the size of the queue cannot be read. -/
theorem steps_error : ∀ {n : Nat} {q : PIEWith F W} {e : Fault}, steps updateStep n q = .error e →
    q.base.sizeBytes = .error e
  | 0, _, _, h => by cases h
  | n + 1, q, e, h => by
      rw [steps] at h
      cases hs : q.updateStep with
      | error e' =>
          rw [hs] at h
          cases h
          exact updateStep_error hs
      | ok q₁ =>
          rw [hs] at h
          rw [← (updateStep_frame hs).2]
          exact steps_error h

/-- **Catch-up does not depend on how often it is called.** Whatever doubles are:
from any state that is not ahead of the clock, calls at times in order leave what
one call at the last of them leaves. A call makes as many updates as it takes for
no more than `t_update_` to be left, and no more; wherever it makes its test,
`last_update_` is not ahead of the clock; it fails only when the size of the queue
cannot be read, and otherwise ends with no more than `t_update_` left. -/
theorem catch_up_independent (F : Double) (W : Arith) (q : PIEWith F W) :
    (∀ (ts : List Nat) (hne : ts ≠ []), (q.lastUpdate :: ts).Pairwise (· ≤ ·) →
      ts.getLast hne < 2 ^ 64 →
      ts.foldlM (fun q t => q.calculateDropProb t) q = q.calculateDropProb (ts.getLast hne)) ∧
    ∀ now, q.lastUpdate ≤ now → now < 2 ^ 64 →
      (∃ n, (∀ m, n ≤ m ↔ now - (q.lastUpdate + tUpdate * m) ≤ tUpdate) ∧
        q.calculateDropProb now = steps updateStep n q) ∧
      (∀ s, Visits (whileDo (updateDue now) updateStep) q s → s.lastUpdate ≤ now) ∧
      (∀ e, q.calculateDropProb now = .error e → q.base.sizeBytes = .error e) ∧
      ∀ q', q.calculateDropProb now = .ok q' →
        q'.lastUpdate ≤ now ∧ now - q'.lastUpdate ≤ tUpdate := by
  have hper := periodic_updateStep (F := F) (W := W)
  refine ⟨fun ts hne hsorted hlt => foldlM_catchUp hper hne hsorted hlt, fun now hle hnow => ?_⟩
  have hsteps : q.calculateDropProb now = steps updateStep (missed tUpdate q.lastUpdate now) q :=
    catchUp_eq_steps hper hnow hle
  refine ⟨⟨_, missed_le_iff hper.pos, hsteps⟩, fun s hs => hper.last_le_of_visits hnow hs hle,
    fun e he => ?_, fun q' hq' => (catchUp_spec hper hnow hle hq').2⟩
  rw [hsteps] at he
  exact steps_error he

/-- Three calls, the second of them 90 ms after the first and the third at once. -/
theorem catch_up_independent_thrice :
    [35, 125, 125].foldlM (fun q t => calculateDropProb t q)
        (ofExact (.initial .machine ⟨1000, 0⟩ 20 100 0))
      = (ofExact (.initial .machine ⟨1000, 0⟩ 20 100 0)).calculateDropProb 125 :=
  (catch_up_independent .exact .machine (ofExact (.initial .machine ⟨1000, 0⟩ 20 100 0))).1
    [35, 125, 125] (by simp) (by decide) (by decide)

end PIEWith

end Mahimahi
