import Mathlib.Tactic.Linarith
import Mahimahi.Pie

/-!
# The control variables of the PIE queue

The variables change in three places: in a turn of the loop that catches up, when a
packet is offered (only the store changes then), and when one is taken out. A run
is cut into these steps (`runSteps`), each with the operations in it that could go
wrong (`PieStep.ops`). Between any two of them the variables are in range
(`InRange`), whatever the clock and the draws do: the drop probability is clamped by
every update, the burst allowance only shrinks until it is reset to its maximum,
and an average rate loses an eighth of itself at a time, rounded down, which never
takes all of it.

Doubles are exact rationals, as in `Pie`.
-/

namespace Mahimahi

/-- An operation on the control variables that could go wrong. -/
inductive PieOp where
  /-- `size_bytes() / avg_dq_rate_` -/
  | qdelay (sizeBytes avgDqRate : Nat)
  /-- `(int) burst_allowance_ - (int) t_update_` -/
  | burstPeriod (burstAllowance : Nat)
  /-- `dq_count_ / dtime` -/
  | rateSample (dqCount dtime : Nat)
  /-- `( avg_dq_rate_ - (avg_dq_rate_ >> 3 )) + (rate_sample >> 3)` -/
  | average (avgDqRate sample : Nat)
  /-- `burst_allowance_ -= dtime` -/
  | burstDtime (burstAllowance dtime : Nat)
  deriving DecidableEq, Repr

/-- Nothing is divided by 0 and nothing wraps. -/
def PieOp.Sound : PieOp → Prop
  | .qdelay _ avgDqRate => 0 < avgDqRate
  | .burstPeriod burstAllowance =>
      i32 burstAllowance = burstAllowance ∧
        i32 (burstAllowance - PIEPacketQueue.tUpdate) = burstAllowance - PIEPacketQueue.tUpdate
  | .rateSample _ dtime => 0 < dtime
  | .average avgDqRate sample =>
      avgDqRate / 8 ≤ avgDqRate ∧ avgDqRate - avgDqRate / 8 + sample / 8 < 2 ^ 32
  | .burstDtime burstAllowance dtime => dtime ≤ burstAllowance

namespace PIEPacketQueue

variable {W : Arith} {q q' : PIEPacketQueue W}

/-! ## The operations of a step -/

/-- Those of a turn of the loop in `calculate_drop_prob`. -/
def updateOps (q : PIEPacketQueue W) : List PieOp :=
  match q.base.sizeBytes with
  | .ok sizeBytes =>
      (if 0 < q.avgDqRate then [.qdelay sizeBytes q.avgDqRate] else []) ++
        [.burstPeriod q.burstAllowance]
  | .error _ => []

/-- Those of a complete measurement. -/
def sampleOps (dqCount dtime : Nat) (q : PIEPacketQueue W) : List PieOp :=
  [.rateSample dqCount dtime] ++
    (if q.avgDqRate = 0 then [] else [.average q.avgDqRate (dqCount / dtime)]) ++
    (if dtime < q.burstAllowance then [.burstDtime q.burstAllowance dtime] else [])

/-- Those of the count of a packet that has left. -/
def departureOps (now size : Nat) (q : PIEPacketQueue W) : List PieOp :=
  if q.dqCount = dqCountInvalid then []
  else
    let dqCount := u32 (q.dqCount + size)
    let dtime := sub32 now q.dqTstamp
    if dqThreshold < dqCount ∧ 0 < dtime then q.sampleOps dqCount dtime else []

/-- Those of `dequeue` before its call of `calculate_drop_prob`. -/
def takeOutOps (now : Nat) (q : PIEPacketQueue W) : List PieOp :=
  match q.base.dequeue with
  | .error _ => []
  | .ok (ret, base) =>
      match base.sizeBytes with
      | .error _ => []
      | .ok sizeBytes =>
          departureOps (u32 now) ret.size
            (startMeasurement (u32 now) sizeBytes { q with base := base })

end PIEPacketQueue

/-- A change of a PIE queue: a turn of the loop that catches up, a packet that is
offered, and one that is taken out at the reading `now`. -/
inductive PieStep (W : Arith) where
  | update (before after : PIEPacketQueue W)
  | offer (before after : PIEPacketQueue W)
  | takeOut (now : Nat) (before after : PIEPacketQueue W)

namespace PieStep

variable {W : Arith}

def before : PieStep W → PIEPacketQueue W
  | update q _ => q
  | offer q _ => q
  | takeOut _ q _ => q

def after : PieStep W → PIEPacketQueue W
  | update _ q => q
  | offer _ q => q
  | takeOut _ _ q => q

def ops : PieStep W → List PieOp
  | update q _ => q.updateOps
  | offer _ _ => []
  | takeOut now q _ => q.takeOutOps now

/-- The turn ends in the reset: its test compares what the turn has computed. -/
def Resets : PieStep W → Prop
  | update q q' => q'.dropProb = 0 ∧ q'.currentQdelay < q'.qdelayRef / 2 ∧
      q'.qdelayOld < q'.qdelayRef / 2 ∧ 0 < q.avgDqRate
  | _ => False

/-- The step is one that the queue takes. -/
def Happens : PieStep W → Prop
  | update q q' => q.updateStep = .ok q'
  | offer q q' => ∃ draw p, q.offer draw p = .ok q'
  | takeOut now q q' => ∃ p, q.takeOut now = .ok (p, q')

/-- One step after the other leads from `q` to `q'`. -/
def Leads : PIEPacketQueue W → List (PieStep W) → PIEPacketQueue W → Prop
  | q, [], q' => q' = q
  | q, s :: steps, q' => s.before = q ∧ s.Happens ∧ Leads s.after steps q'

theorem Leads.append : ∀ {ss ts : List (PieStep W)} {q q₁ q' : PIEPacketQueue W},
    Leads q ss q₁ → Leads q₁ ts q' → Leads q (ss ++ ts) q'
  | [], _, _, _, _, h, h' => by
      cases h
      exact h'
  | _ :: _, _, _, _, _, h, h' => ⟨h.1, h.2.1, h.2.2.append h'⟩

end PieStep

namespace PIEPacketQueue

variable {W : Arith} {q q' : PIEPacketQueue W} {maxBurst : Nat}

/-! ## The steps of a run -/

/-- The turns of `calculate_drop_prob`. -/
def catchUpSteps (now : Nat) (q : PIEPacketQueue W) : List (PieStep W) :=
  (turns (whileDo (updateDue now) updateStep) (sub64 now q.lastUpdate / tUpdate + 1) q).map
    fun t => .update t.1 t.2

/-- The steps of a call, up to a failure. -/
def callSteps : QueueCall → PIEPacketQueue W → List (PieStep W)
  | .enqueue env p, q =>
      q.catchUpSteps env.now ++
        match q.calculateDropProb env.now with
        | .error _ => []
        | .ok q₁ =>
            match q₁.offer env.draw p with
            | .error _ => []
            | .ok q₂ => [.offer q₁ q₂]
  | .dequeue env, q =>
      match q.takeOut env.now with
      | .error _ => []
      | .ok (_, q₁) => .takeOut env.now q q₁ :: q₁.catchUpSteps env.later

/-- The steps of a run, up to a failure. -/
def runSteps : List QueueCall → PIEPacketQueue W → List (PieStep W)
  | [], _ => []
  | c :: calls, q =>
      q.callSteps c ++
        match runCalls [c] q with
        | .error _ => []
        | .ok q' => runSteps calls q'

theorem leads_catchUpSteps (now : Nat) (q : PIEPacketQueue W) :
    ∃ q', PieStep.Leads q (q.catchUpSteps now) q' ∧
      ∀ r, q.calculateDropProb now = .ok r → r = q' := by
  unfold catchUpSteps calculateDropProb
  generalize sub64 now q.lastUpdate / tUpdate + 1 = n
  induction n generalizing q with
  | zero => exact ⟨q, rfl, fun r hr => by cases hr⟩
  | succ n ih =>
      rw [turns, loop]
      cases hb : whileDo (updateDue now) updateStep q with
      | error e => exact ⟨q, rfl, fun r hr => by cases hr⟩
      | ok t =>
          cases t with
          | inl q₁ =>
              obtain ⟨q', hleads, hend⟩ := ih q₁
              exact ⟨q', ⟨rfl, (whileDo_again.mp hb).2, hleads⟩, hend⟩
          | inr r =>
              obtain ⟨-, rfl⟩ := whileDo_leave.mp hb
              exact ⟨r, rfl, fun r' hr => by cases hr; rfl⟩

theorem leads_callSteps (c : QueueCall) (q : PIEPacketQueue W) :
    ∃ q', PieStep.Leads q (q.callSteps c) q' ∧ ∀ r, runCalls [c] q = .ok r → r = q' := by
  cases c with
  | enqueue env p =>
      obtain ⟨q₁, hleads, hend⟩ := leads_catchUpSteps env.now q
      cases hc : q.calculateDropProb env.now with
      | error e =>
          have hsteps : q.callSteps (.enqueue env p) = q.catchUpSteps env.now := by
            simp [callSteps, hc]
          refine ⟨q₁, by rw [hsteps]; exact hleads, fun r hr => ?_⟩
          simp [runCalls, AbstractPacketQueue.enqueue, enqueue, hc] at hr
      | ok q₂ =>
          obtain rfl := hend q₂ hc
          cases ho : q₂.offer env.draw p with
          | error e =>
              have hsteps : q.callSteps (.enqueue env p) = q.catchUpSteps env.now := by
                simp [callSteps, hc, ho]
              refine ⟨q₂, by rw [hsteps]; exact hleads, fun r hr => ?_⟩
              simp [runCalls, AbstractPacketQueue.enqueue, enqueue, hc, ho] at hr
          | ok q₃ =>
              have hsteps : q.callSteps (.enqueue env p)
                  = q.catchUpSteps env.now ++ [.offer q₂ q₃] := by simp [callSteps, hc, ho]
              refine ⟨q₃, ?_, fun r hr => ?_⟩
              · rw [hsteps]
                exact hleads.append ⟨rfl, ⟨env.draw, p, ho⟩, rfl⟩
              · simpa [runCalls, AbstractPacketQueue.enqueue, enqueue, hc, ho, eq_comm] using hr
  | dequeue env =>
      cases ht : q.takeOut env.now with
      | error e =>
          have hsteps : q.callSteps (.dequeue env) = [] := by simp [callSteps, ht]
          refine ⟨q, by rw [hsteps]; rfl, fun r hr => ?_⟩
          simp [runCalls, AbstractPacketQueue.dequeue, dequeue, ht] at hr
      | ok out =>
          obtain ⟨p, q₁⟩ := out
          have hsteps : q.callSteps (.dequeue env)
              = .takeOut env.now q q₁ :: q₁.catchUpSteps env.later := by simp [callSteps, ht]
          obtain ⟨q', hleads, hend⟩ := leads_catchUpSteps env.later q₁
          refine ⟨q', by rw [hsteps]; exact ⟨rfl, ⟨p, ht⟩, hleads⟩, fun r hr => ?_⟩
          cases hc : q₁.calculateDropProb env.later with
          | error e => simp [runCalls, AbstractPacketQueue.dequeue, dequeue, ht, hc] at hr
          | ok q₂ =>
              obtain rfl := hend q₂ hc
              simpa [runCalls, AbstractPacketQueue.dequeue, dequeue, ht, hc, eq_comm] using hr

/-- The steps of a run lead to where the run does. -/
theorem leads_runSteps : ∀ (calls : List QueueCall) (q : PIEPacketQueue W),
    ∃ q', PieStep.Leads q (runSteps calls q) q' ∧ ∀ r, runCalls calls q = .ok r → r = q'
  | [], q => ⟨q, rfl, fun r hr => by cases hr; rfl⟩
  | c :: calls, q => by
      obtain ⟨q₁, hleads, hend⟩ := leads_callSteps c q
      have hsplit : runCalls (c :: calls) q = runCalls [c] q >>= runCalls calls := by
        cases c <;> simp [runCalls]
      rw [runSteps, hsplit]
      cases hc : runCalls [c] q with
      | error e => exact ⟨q₁, by simpa using hleads, fun r hr => by cases hr⟩
      | ok q₂ =>
          obtain rfl := hend q₂ hc
          obtain ⟨q', hleads', hend'⟩ := leads_runSteps calls q₂
          exact ⟨q', hleads.append hleads', hend'⟩

/-! ## What a step keeps -/

/-- The variables are in range. -/
structure InRange (q : PIEPacketQueue W) : Prop where
  dropProb_nonneg : 0 ≤ q.dropProb
  dropProb_le : q.dropProb ≤ 1
  burst_le : q.burstAllowance ≤ q.maxBurst

/-- And the counters are the `uint32_t` that they are. -/
structure Bounded (maxBurst : Nat) (q : PIEPacketQueue W) : Prop where
  inRange : q.InRange
  maxBurst_eq : q.maxBurst = maxBurst
  dqCount_lt : q.dqCount < 2 ^ 32
  avgDqRate_lt : q.avgDqRate < 2 ^ 32

theorem dqCountInvalid_lt : dqCountInvalid < 2 ^ 32 := by decide

theorem i32_of_lt {n : Nat} (h : n < 2 ^ 31) : i32 n = n := by
  rw [i32]
  exact Int.bmod_eq_of_le (by omega) (by omega)

theorem i32_sub_tUpdate {n : Nat} (h : n < 2 ^ 31) : i32 ((n : Int) - tUpdate) = n - tUpdate := by
  rw [i32]
  exact Int.bmod_eq_of_le (by simp only [tUpdate]; omega) (by simp only [tUpdate]; omega)

theorem clamped_mem (sum : ℚ) :
    0 ≤ (if sum < 0 then 0 else if 1 < sum then 1 else sum) ∧
      (if sum < 0 then 0 else if 1 < sum then 1 else sum) ≤ 1 := by
  split
  · exact ⟨le_rfl, zero_le_one⟩
  · next hneg =>
      split
      · exact ⟨zero_le_one, le_rfl⟩
      · next hone => exact ⟨not_lt.mp hneg, not_lt.mp hone⟩

theorem decayed_mem {p : ℚ} (h : 0 ≤ p ∧ p ≤ 1) (decays : Prop) [Decidable decays] :
    0 ≤ (if decays then p * (98 / 100) else p) ∧ (if decays then p * (98 / 100) else p) ≤ 1 := by
  obtain ⟨hnonneg, hle⟩ := h
  split
  · constructor <;> linarith
  · exact ⟨hnonneg, hle⟩

theorem Bounded.clearIfIdle (h : Bounded maxBurst q) : Bounded maxBurst q.clearIfIdle := by
  unfold PIEPacketQueue.clearIfIdle
  split
  · exact ⟨⟨h.inRange.dropProb_nonneg, h.inRange.dropProb_le, le_rfl⟩, h.maxBurst_eq,
      dqCountInvalid_lt, Nat.two_pow_pos 32⟩
  · exact h

theorem clearIfIdle_resets (hpos : 0 < q.avgDqRate) (hzero : q.clearIfIdle.avgDqRate = 0) :
    q.clearIfIdle.dropProb = 0 ∧ q.clearIfIdle.currentQdelay < q.clearIfIdle.qdelayRef / 2 ∧
      q.clearIfIdle.qdelayOld < q.clearIfIdle.qdelayRef / 2 := by
  unfold clearIfIdle at hzero ⊢
  by_cases hidle : q.dropProb = 0 ∧ q.currentQdelay < q.qdelayRef / 2 ∧
      q.qdelayOld < q.qdelayRef / 2 ∧ 0 < q.avgDqRate
  · rw [if_pos hidle]
    exact ⟨hidle.1, hidle.2.1, hidle.2.2.1⟩
  · rw [if_neg hidle] at hzero
    omega

/-- A turn before its reset: the drop probability is clamped, a period is off the
burst allowance, and the measurement is as it was. -/
theorem updateStep_cases (hlt : q.burstAllowance < 2 ^ 31) (hu : q.updateStep = .ok q') :
    ∃ q₁ : PIEPacketQueue W, q' = q₁.clearIfIdle ∧ (0 ≤ q₁.dropProb ∧ q₁.dropProb ≤ 1) ∧
      q₁.burstAllowance = q.burstAllowance - tUpdate ∧
      q₁.maxBurst = q.maxBurst ∧ q₁.dqCount = q.dqCount ∧ q₁.avgDqRate = q.avgDqRate := by
  obtain ⟨sizeBytes, -, hret⟩ := bind_eq_ok.mp hu
  cases hret
  refine ⟨_, rfl, decayed_mem (clamped_mem _) _, ?_, rfl, rfl, rfl⟩
  simp only [i32_of_lt hlt, i32_sub_tUpdate hlt]
  omega

/-- A turn of the loop keeps the variables in range, and leaves the average rate
alone unless it resets. -/
theorem Bounded.updateStep (hburst : maxBurst < 2 ^ 31) (h : Bounded maxBurst q)
    (hu : q.updateStep = .ok q') :
    Bounded maxBurst q' ∧ (∀ op ∈ q.updateOps, op.Sound) ∧
      (0 < q.avgDqRate → q'.avgDqRate = 0 → (PieStep.update q q').Resets) := by
  have hlt : q.burstAllowance < 2 ^ 31 := by
    have hle := h.inRange.burst_le
    rw [h.maxBurst_eq] at hle
    omega
  obtain ⟨q₁, rfl, hprob, hallowance, hmax, hcount, havg⟩ := updateStep_cases hlt hu
  refine ⟨Bounded.clearIfIdle ⟨⟨hprob.1, hprob.2, ?_⟩, ?_, ?_, ?_⟩, fun op hop => ?_,
    fun hpos hzero => ?_⟩
  · have hle := h.inRange.burst_le
    rw [hallowance, hmax]
    omega
  · rw [hmax, h.maxBurst_eq]
  · rw [hcount]
    exact h.dqCount_lt
  · rw [havg]
    exact h.avgDqRate_lt
  · unfold updateOps at hop
    cases hsize : q.base.sizeBytes with
    | error e =>
        rw [hsize] at hop
        cases hop
    | ok sizeBytes =>
        simp only [hsize, List.mem_append, List.mem_singleton] at hop
        rcases hop with hop | rfl
        · split at hop
          · next hpos =>
              obtain rfl := List.mem_singleton.mp hop
              exact hpos
          · cases hop
        · have hint := i32_of_lt hlt
          have hsub := i32_sub_tUpdate hlt
          exact ⟨hint, hsub⟩
  · obtain ⟨hidle, hcurrent, hold⟩ := clearIfIdle_resets (havg ▸ hpos) hzero
    exact ⟨hidle, hcurrent, hold, hpos⟩

theorem Bounded.offer {draw : ℚ} {p : QueuedPacket} (h : Bounded maxBurst q)
    (ho : q.offer draw p = .ok q') : Bounded maxBurst q' ∧ q'.avgDqRate = q.avgDqRate := by
  obtain ⟨b, -, ho⟩ := bind_eq_ok.mp ho
  cases b
  · cases ho
    exact ⟨h, rfl⟩
  · obtain ⟨d, -, ho⟩ := bind_eq_ok.mp ho
    obtain ⟨u, -, ho⟩ := bind_eq_ok.mp ho
    cases ho
    exact ⟨⟨⟨h.inRange.dropProb_nonneg, h.inRange.dropProb_le, h.inRange.burst_le⟩, h.maxBurst_eq,
      h.dqCount_lt, h.avgDqRate_lt⟩, rfl⟩

/-- The average stays below `2 ^ 32`, and does not fall to 0. -/
theorem average_bounds {avgDqRate sample : Nat} (havg : avgDqRate < 2 ^ 32) (hs : sample < 2 ^ 32) :
    (PieOp.average avgDqRate sample).Sound ∧
      u32 (sub32 avgDqRate (avgDqRate / 8) + sample / 8)
        = avgDqRate - avgDqRate / 8 + sample / 8 := by
  have hle : avgDqRate / 8 ≤ avgDqRate := Nat.div_le_self _ _
  have hlt : avgDqRate - avgDqRate / 8 + sample / 8 < 2 ^ 32 := by omega
  exact ⟨⟨hle, hlt⟩, by rw [sub32_of_le hle, u32_of_lt hlt]⟩

theorem Bounded.sampleRate {now sizeBytes dqCount dtime : Nat} (h : Bounded maxBurst q)
    (hcount : dqCount < 2 ^ 32) (hpos : 0 < dtime) :
    Bounded maxBurst (q.sampleRate now sizeBytes dqCount dtime) ∧
      (∀ op ∈ q.sampleOps dqCount dtime, op.Sound) ∧
      (0 < q.avgDqRate → 0 < (q.sampleRate now sizeBytes dqCount dtime).avgDqRate) := by
  have hsample : dqCount / dtime < 2 ^ 32 := Nat.lt_of_le_of_lt (Nat.div_le_self _ _) hcount
  obtain ⟨hsound, heq⟩ := average_bounds h.avgDqRate_lt hsample
  have hrate : (q.sampleRate now sizeBytes dqCount dtime).avgDqRate =
      if q.avgDqRate = 0 then dqCount / dtime
      else q.avgDqRate - q.avgDqRate / 8 + dqCount / dtime / 8 := by
    rw [← heq]
    rfl
  refine ⟨⟨⟨h.inRange.dropProb_nonneg, h.inRange.dropProb_le, ?_⟩, h.maxBurst_eq, ?_, ?_⟩,
    fun op hop => ?_, fun havg => ?_⟩
  · have hle := h.inRange.burst_le
    show (if dtime < q.burstAllowance then q.burstAllowance - dtime else 0) ≤ q.maxBurst
    split <;> omega
  · show (if sizeBytes < dqThreshold then dqCountInvalid else 0) < 2 ^ 32
    split <;> decide
  · rw [hrate]
    split
    · exact hsample
    · exact hsound.2
  · simp only [sampleOps, List.mem_append, List.mem_singleton] at hop
    rcases hop with (rfl | hop) | hop
    · exact hpos
    · split at hop
      · cases hop
      · obtain rfl := List.mem_singleton.mp hop
        exact hsound
    · split at hop
      · next hlt =>
          obtain rfl := List.mem_singleton.mp hop
          exact Nat.le_of_lt hlt
      · cases hop
  · rw [hrate, if_neg (Nat.ne_of_gt havg)]
    exact Nat.add_pos_left (by omega) _

theorem Bounded.countDeparture (now sizeBytes size : Nat) (h : Bounded maxBurst q) :
    Bounded maxBurst (q.countDeparture now sizeBytes size) ∧
      (∀ op ∈ q.departureOps now size, op.Sound) ∧
      (0 < q.avgDqRate → 0 < (q.countDeparture now sizeBytes size).avgDqRate) := by
  unfold PIEPacketQueue.countDeparture departureOps
  by_cases hinvalid : q.dqCount = dqCountInvalid
  · rw [if_pos hinvalid, if_pos hinvalid]
    exact ⟨h, fun op hop => (by cases hop), fun hpos => hpos⟩
  · rw [if_neg hinvalid, if_neg hinvalid]
    have hcount : u32 (q.dqCount + size) < 2 ^ 32 := Nat.mod_lt _ (by decide)
    by_cases hfull : dqThreshold < u32 (q.dqCount + size) ∧ 0 < sub32 now q.dqTstamp
    · simp only [if_pos hfull]
      exact h.sampleRate hcount hfull.2
    · simp only [if_neg hfull]
      exact ⟨⟨⟨h.inRange.dropProb_nonneg, h.inRange.dropProb_le, h.inRange.burst_le⟩, h.maxBurst_eq,
        hcount, h.avgDqRate_lt⟩, fun op hop => (by cases hop), fun hpos => hpos⟩

theorem Bounded.takeOut {now : Nat} {p : QueuedPacket} (h : Bounded maxBurst q)
    (ht : q.takeOut now = .ok (p, q')) :
    Bounded maxBurst q' ∧ (∀ op ∈ q.takeOutOps now, op.Sound) ∧
      (0 < q.avgDqRate → 0 < q'.avgDqRate) := by
  obtain ⟨⟨ret, base⟩, hd, ht⟩ := bind_eq_ok.mp ht
  obtain ⟨sizeBytes, hsize, ht⟩ := bind_eq_ok.mp ht
  cases ht
  have hstart : Bounded maxBurst (startMeasurement (u32 now) sizeBytes { q with base := base }) ∧
      (startMeasurement (u32 now) sizeBytes { q with base := base }).avgDqRate = q.avgDqRate := by
    unfold startMeasurement
    split
    · exact ⟨⟨⟨h.inRange.dropProb_nonneg, h.inRange.dropProb_le, h.inRange.burst_le⟩, h.maxBurst_eq,
        Nat.two_pow_pos 32, h.avgDqRate_lt⟩, rfl⟩
    · exact ⟨⟨⟨h.inRange.dropProb_nonneg, h.inRange.dropProb_le, h.inRange.burst_le⟩, h.maxBurst_eq,
        h.dqCount_lt, h.avgDqRate_lt⟩, rfl⟩
  obtain ⟨hbounded, hops, havg⟩ := hstart.1.countDeparture (u32 now) sizeBytes p.size
  refine ⟨hbounded, ?_, fun hpos => havg (by rw [hstart.2]; exact hpos)⟩
  simp only [takeOutOps, hd, hsize]
  exact hops

theorem Bounded.step (hburst : maxBurst < 2 ^ 31) {s : PieStep W} (h : Bounded maxBurst s.before)
    (hs : s.Happens) : Bounded maxBurst s.after ∧ (∀ op ∈ s.ops, op.Sound) ∧
      (0 < s.before.avgDqRate → s.after.avgDqRate = 0 → s.Resets) := by
  cases s with
  | update q q' => exact h.updateStep hburst hs
  | offer q q' =>
      obtain ⟨draw, p, ho⟩ := hs
      obtain ⟨hbounded, havg⟩ := h.offer ho
      refine ⟨hbounded, fun op hop => (by cases hop), fun hpos hzero => ?_⟩
      have hzero : q'.avgDqRate = 0 := hzero
      have hpos : 0 < q.avgDqRate := hpos
      omega
  | takeOut now q q' =>
      obtain ⟨p, ht⟩ := hs
      obtain ⟨hbounded, hops, havg⟩ := h.takeOut ht
      refine ⟨hbounded, hops, fun hpos hzero => ?_⟩
      have hzero : q'.avgDqRate = 0 := hzero
      have hpos := havg hpos
      omega

theorem Bounded.leads (hburst : maxBurst < 2 ^ 31) : ∀ {steps : List (PieStep W)}
    {q q' : PIEPacketQueue W}, Bounded maxBurst q → PieStep.Leads q steps q' →
    Bounded maxBurst q' ∧ ∀ s ∈ steps, s.after.InRange ∧ (∀ op ∈ s.ops, op.Sound) ∧
      (0 < s.before.avgDqRate → s.after.avgDqRate = 0 → s.Resets)
  | [], _, _, h, hleads => by
      cases hleads
      exact ⟨h, fun s hs => (by cases hs)⟩
  | s :: steps, q, q', h, ⟨hbefore, hs, hrest⟩ => by
      subst hbefore
      obtain ⟨hafter, hops, hpos⟩ := h.step hburst hs
      obtain ⟨hend, hsteps⟩ := Bounded.leads hburst hafter hrest
      refine ⟨hend, fun t ht => ?_⟩
      rcases List.mem_cons.mp ht with rfl | ht
      · exact ⟨hafter.inRange, hops, hpos⟩
      · exact hsteps t ht

/-- **The control variables stay in range.** With a maximal burst below `2 ^ 31`,
in every run, whatever the clock, the packets and the draws: before and after every
step the drop probability is between 0 and 1 and the burst allowance no more than
its maximum; no operation on the way divides by 0 or wraps; and an average rate
that is positive is positive after the step as well, unless the step resets it. -/
theorem pie_stays_in_range (W : Arith) (l : Limits) (qdelayRef maxBurst start : Nat)
    (hburst : maxBurst < 2 ^ 31) (calls : List QueueCall) :
    let q₀ := initial W l qdelayRef maxBurst start
    q₀.InRange ∧
    (∀ s ∈ runSteps calls q₀, s.after.InRange ∧ (∀ op ∈ s.ops, op.Sound) ∧
      (0 < s.before.avgDqRate → s.after.avgDqRate = 0 → s.Resets)) ∧
    ∀ q, runCalls calls q₀ = .ok q → q.InRange := by
  intro q₀
  have h₀ : Bounded maxBurst q₀ :=
    ⟨⟨le_rfl, zero_le_one, Nat.zero_le _⟩, rfl, dqCountInvalid_lt, Nat.two_pow_pos 32⟩
  obtain ⟨q', hleads, hend⟩ := leads_runSteps calls q₀
  obtain ⟨hq', hsteps⟩ := h₀.leads hburst hleads
  refine ⟨h₀.inRange, hsteps, fun q hq => ?_⟩
  rw [hend q hq]
  exact hq'.inRange

/-- A packet that waits for two updates. -/
theorem pie_stays_in_range_waiting :
    ∃ q, runCalls [.enqueue ⟨5, 5, 0⟩ ⟨5, [1]⟩, .dequeue ⟨65, 70, 0⟩]
      (initial .machine ⟨1000, 0⟩ 20 100 0) = .ok q ∧ q.InRange := by
  obtain ⟨-, -, hend⟩ := pie_stays_in_range .machine ⟨1000, 0⟩ 20 100 0 (by decide)
    [.enqueue ⟨5, 5, 0⟩ ⟨5, [1]⟩, .dequeue ⟨65, 70, 0⟩]
  cases hrun : runCalls [.enqueue ⟨5, 5, 0⟩ ⟨5, [1]⟩, .dequeue ⟨65, 70, 0⟩]
      (initial .machine ⟨1000, 0⟩ 20 100 0) with
  | error e =>
      have hok : (runCalls [.enqueue ⟨5, 5, 0⟩ ⟨5, [1]⟩, .dequeue ⟨65, 70, 0⟩]
        (initial .machine ⟨1000, 0⟩ 20 100 0)).toBool = true := by decide +kernel
      rw [hrun] at hok
      cases hok
  | ok q => exact ⟨q, rfl, hend q hrun⟩

end PIEPacketQueue

end Mahimahi
