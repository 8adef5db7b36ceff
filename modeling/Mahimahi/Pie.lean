import Mathlib.Algebra.Order.Ring.Rat
import Mathlib.Tactic.NormNum
import Mahimahi.CatchUp
import Mahimahi.PacketQueue

/-!
# The PIE queue

`PIEPacketQueue` recomputes its drop probability every `t_update_`
milliseconds. It has no timer: `calculate_drop_prob` replays the updates
that have been missed, one turn of a loop each (`updateStep`), at the start
of `enqueue` and at the end of `dequeue`.

The timer it stands for is a second machine (`TimedPie`): its `n`-th tick
fires at `start + n * t_update_`, before any call at a later time, on the
queue as it is then. `controlTrace_eq_timed` says when the two agree: the
replay at the end of `dequeue` comes after the packet has left and the rate
has been measured, so no tick may fall due between the call before and the
dequeue itself. Then a call only ever replays the ticks of an interval in
which nothing happened, which is `calculateDropProb_eq_ticks`.

Doubles are read as exact rationals.
-/

namespace Mahimahi

/-- `PIEPacketQueue`. -/
structure PIEPacketQueue (W : Arith) where
  base : DroppingPacketQueue W
  qdelayRef : Nat
  maxBurst : Nat
  dropProb : ℚ
  burstAllowance : Nat
  qdelayOld : Nat
  currentQdelay : Nat
  dqCount : Nat
  dqTstamp : Nat
  avgDqRate : Nat
  lastUpdate : Nat

/-- The variables that `drop_early` consults. -/
structure PieControl where
  dropProb : ℚ
  burstAllowance : Nat
  qdelayOld : Nat
  deriving DecidableEq

namespace PIEPacketQueue

variable {W : Arith}

def alpha : ℚ := 1 / 8
def beta : ℚ := 5 / 4
/-- In milliseconds. -/
def tUpdate : Nat := 30
/-- In bytes. -/
def dqThreshold : Nat := 16384
def dqCountInvalid : Nat := 2 ^ 32 - 1

/-- The constructor, for the arguments it does not reject, at the clock
reading `now`. -/
def initial (W : Arith) (l : Limits) (qdelayRef maxBurst now : Nat) : PIEPacketQueue W where
  base := .initial W l
  qdelayRef := qdelayRef
  maxBurst := maxBurst
  dropProb := 0
  burstAllowance := 0
  qdelayOld := 0
  currentQdelay := 0
  dqCount := dqCountInvalid
  dqTstamp := 0
  avgDqRate := 0
  lastUpdate := now

def control (q : PIEPacketQueue W) : PieControl := ⟨q.dropProb, q.burstAllowance, q.qdelayOld⟩

/-! ## The periodic update -/

/-- What `p` is divided by, given the drop probability. -/
def scale (dropProb : ℚ) : ℚ :=
  if dropProb < 1 / 100 then 128 else if dropProb < 1 / 10 then 32 else 16

/-- The end of an update: with no drop probability and short delays the rate
measurement starts over. -/
def clearIfIdle (q : PIEPacketQueue W) : PIEPacketQueue W :=
  if q.dropProb = 0 ∧ q.currentQdelay < q.qdelayRef / 2 ∧ q.qdelayOld < q.qdelayRef / 2
      ∧ 0 < q.avgDqRate then
    { q with dqCount := dqCountInvalid, avgDqRate := 0, burstAllowance := q.maxBurst }
  else q

/-- The body of the loop in `calculate_drop_prob`. -/
def updateStep (q : PIEPacketQueue W) : Except Fault (PIEPacketQueue W) := do
  let sizeBytes ← q.base.sizeBytes
  let qdelayOld := q.currentQdelay
  let currentQdelay := if 0 < q.avgDqRate then sizeBytes / q.avgDqRate else 0
  let p : ℚ := (alpha * i32 (sub32 currentQdelay q.qdelayRef)
    + beta * i32 (sub32 currentQdelay qdelayOld)) / scale q.dropProb
  let sum := q.dropProb + p
  let clamped := if sum < 0 then 0 else if 1 < sum then 1 else sum
  let updateProb := decide (¬ (currentQdelay = 0 ∧ sizeBytes ≠ 0)) && decide (¬ 1 < sum)
  let dropProb :=
    if currentQdelay = 0 ∧ qdelayOld = 0 ∧ updateProb = true then clamped * (98 / 100) else clamped
  return clearIfIdle { q with
    qdelayOld := qdelayOld
    currentQdelay := currentQdelay
    dropProb := dropProb
    burstAllowance := (max 0 (i32 (i32 q.burstAllowance - tUpdate))).toNat
    lastUpdate := u64 (q.lastUpdate + tUpdate) }

/-- `now - last_update_ > t_update_`. -/
def updateDue (now : Nat) (q : PIEPacketQueue W) : Bool := decide (tUpdate < sub64 now q.lastUpdate)

def calculateDropProb (now : Nat) (q : PIEPacketQueue W) : Except Fault (PIEPacketQueue W) :=
  loop .diverges (whileDo (updateDue now) updateStep) (sub64 now q.lastUpdate / tUpdate + 1) q

/-! ## enqueue and dequeue -/

/-- `drop_early`: whether the packet should be dropped. -/
def dropEarly (draw : ℚ) (q : PIEPacketQueue W) : Except Fault Bool := do
  if 0 < q.burstAllowance then
    return false
  if q.qdelayOld < q.qdelayRef / 2 ∧ q.dropProb < 1 / 5 then
    return false
  let sizeBytes ← q.base.sizeBytes
  if sizeBytes < 2 * packetSize then
    return false
  return decide (draw < q.dropProb)

/-- `enqueue` after its call of `calculate_drop_prob`. -/
def offer (draw : ℚ) (p : QueuedPacket) (q : PIEPacketQueue W) :
    Except Fault (PIEPacketQueue W) := do
  -- a full internal queue drops the packet and returns before the assertion
  if ← q.base.goodWithPacket p then
    let base := if ← q.dropEarly draw then q.base else q.base.accept p
    base.assertGood
    return { q with base := base }
  else
    return q

def enqueue (env : Env) (q : PIEPacketQueue W) (p : QueuedPacket) :
    Except Fault (PIEPacketQueue W) := do
  let q ← q.calculateDropProb env.now
  q.offer env.draw p

/-- The measurement that is complete once more than `dq_threshold_` bytes
have left in a non-zero time. -/
def sampleRate (now sizeBytes dqCount dtime : Nat) (q : PIEPacketQueue W) : PIEPacketQueue W :=
  let rateSample := dqCount / dtime
  { q with
    avgDqRate :=
      if q.avgDqRate = 0 then rateSample
      else u32 (sub32 q.avgDqRate (q.avgDqRate / 8) + rateSample / 8)
    dqCount := if sizeBytes < dqThreshold then dqCountInvalid else 0
    dqTstamp := if sizeBytes < dqThreshold then q.dqTstamp else now
    burstAllowance := if dtime < q.burstAllowance then q.burstAllowance - dtime else 0 }

/-- A measurement starts when enough is queued. -/
def startMeasurement (now sizeBytes : Nat) (q : PIEPacketQueue W) : PIEPacketQueue W :=
  if dqThreshold ≤ sizeBytes ∧ q.dqCount = dqCountInvalid
  then { q with dqTstamp := now, dqCount := 0 } else q

/-- A running measurement counts the packet of `size` bytes that has left. -/
def countDeparture (now sizeBytes size : Nat) (q : PIEPacketQueue W) : PIEPacketQueue W :=
  if q.dqCount = dqCountInvalid then q
  else
    let dqCount := u32 (q.dqCount + size)
    let dtime := sub32 now q.dqTstamp
    if dqThreshold < dqCount ∧ 0 < dtime then q.sampleRate now sizeBytes dqCount dtime
    else { q with dqCount := dqCount }

/-- `dequeue` before its call of `calculate_drop_prob`. -/
def takeOut (now : Nat) (q : PIEPacketQueue W) :
    Except Fault (QueuedPacket × PIEPacketQueue W) := do
  let (ret, base) ← q.base.dequeue
  let sizeBytes ← base.sizeBytes
  let q := startMeasurement (u32 now) sizeBytes { q with base := base }
  return (ret, q.countDeparture (u32 now) sizeBytes ret.size)

def dequeue (env : Env) (q : PIEPacketQueue W) :
    Except Fault (QueuedPacket × PIEPacketQueue W) := do
  let (ret, q) ← q.takeOut env.now
  let q ← q.calculateDropProb env.later
  return (ret, q)

instance : AbstractPacketQueue (PIEPacketQueue W) where
  enqueue := enqueue
  dequeue := dequeue
  empty q := q.base.empty
  sizeBytes q := q.base.sizeBytes
  sizePackets q := q.base.sizePackets

/-! ## The replay as a number of ticks -/

/-- `n` updates in a row. -/
def ticks : Nat → PIEPacketQueue W → Except Fault (PIEPacketQueue W)
  | 0, q => .ok q
  | n + 1, q => q.updateStep >>= ticks n

/-- How many ticks of a timer started at `start` come before the time `t`. -/
def ticksBefore (start t : Nat) : Nat := (t - start - 1) / tUpdate

theorem ticksBefore_start (start : Nat) : ticksBefore start start = 0 := by
  simp [ticksBefore]

theorem ticksBefore_mono (start : Nat) {t t' : Nat} (h : t ≤ t') :
    ticksBefore start t ≤ ticksBefore start t' :=
  missed_mono tUpdate start h

theorem ticksBefore_le {start t : Nat} (h : start ≤ t) :
    start + tUpdate * ticksBefore start t ≤ t := add_missed_le h

theorem clearIfIdle_lastUpdate (q : PIEPacketQueue W) : q.clearIfIdle.lastUpdate = q.lastUpdate := by
  unfold clearIfIdle
  split <;> rfl

theorem updateStep_lastUpdate {q q' : PIEPacketQueue W} (h : q.updateStep = .ok q') :
    q'.lastUpdate = u64 (q.lastUpdate + tUpdate) := by
  simp only [updateStep, bind_eq_ok] at h
  obtain ⟨n, -, h⟩ := h
  rw [← Except.ok.inj h]
  exact clearIfIdle_lastUpdate _

theorem periodic_updateStep : Periodic (updateStep (W := W)) lastUpdate tUpdate :=
  ⟨by decide, updateStep_lastUpdate⟩

theorem ticks_eq_steps (n : Nat) (q : PIEPacketQueue W) : ticks n q = steps updateStep n q := by
  induction n generalizing q with
  | zero => rfl
  | succ n ih =>
      rw [ticks, steps]
      cases q.updateStep with
      | error e => rfl
      | ok q' => exact ih q'

/-- `calculate_drop_prob` replays exactly the ticks between `last_update_`
and the clock reading. -/
theorem calculateDropProb_eq_ticks {now : Nat} {q : PIEPacketQueue W} (hnow : now < 2 ^ 64)
    (hle : q.lastUpdate ≤ now) :
    q.calculateDropProb now = ticks (ticksBefore q.lastUpdate now) q := by
  rw [ticks_eq_steps]
  exact catchUp_eq_steps periodic_updateStep hnow hle

theorem ticks_lastUpdate {n : Nat} {q q' : PIEPacketQueue W} (h : ticks n q = .ok q')
    (hlt : q.lastUpdate + tUpdate * n < 2 ^ 64) : q'.lastUpdate = q.lastUpdate + tUpdate * n := by
  rw [ticks_eq_steps] at h
  exact periodic_updateStep.last_steps h hlt

theorem offer_lastUpdate {draw : ℚ} {p : QueuedPacket} {q q' : PIEPacketQueue W}
    (h : q.offer draw p = .ok q') : q'.lastUpdate = q.lastUpdate := by
  simp only [offer, bind_eq_ok] at h
  obtain ⟨b, -, h⟩ := h
  cases b
  · cases h; rfl
  · simp only [if_true, bind_eq_ok] at h
    obtain ⟨d, -, u, -, h⟩ := h
    cases h; rfl

theorem startMeasurement_lastUpdate (now sizeBytes : Nat) (q : PIEPacketQueue W) :
    (q.startMeasurement now sizeBytes).lastUpdate = q.lastUpdate := by
  unfold startMeasurement
  split <;> rfl

theorem countDeparture_lastUpdate (now sizeBytes size : Nat) (q : PIEPacketQueue W) :
    (q.countDeparture now sizeBytes size).lastUpdate = q.lastUpdate := by
  unfold countDeparture
  split
  · rfl
  · dsimp only
    split <;> rfl

theorem takeOut_lastUpdate {now : Nat} {p : QueuedPacket} {q q' : PIEPacketQueue W}
    (h : q.takeOut now = .ok (p, q')) : q'.lastUpdate = q.lastUpdate := by
  simp only [takeOut, bind_eq_ok] at h
  obtain ⟨⟨ret, base⟩, -, n, -, h⟩ := h
  cases h
  rw [countDeparture_lastUpdate, startMeasurement_lastUpdate]

/-! ## What is queued -/

theorem clearIfIdle_base (q : PIEPacketQueue W) : q.clearIfIdle.base = q.base := by
  unfold clearIfIdle
  split <;> rfl

theorem updateStep_base {q q' : PIEPacketQueue W} (h : q.updateStep = .ok q') :
    q'.base = q.base := by
  simp only [updateStep, bind_eq_ok] at h
  obtain ⟨n, -, h⟩ := h
  rw [← Except.ok.inj h]
  exact clearIfIdle_base _

/-- Replaying updates leaves the packets alone. -/
theorem calculateDropProb_base {now : Nat} {q q' : PIEPacketQueue W}
    (h : q.calculateDropProb now = .ok q') : q'.base = q.base := by
  refine (exits_of_loop_ok h).invariant (I := fun s => s.base = q.base)
    (Q := fun r => r.base = q.base) (fun s s' hI hb => ?_) (fun s r hI hb => ?_) rfl q' rfl
  · exact (updateStep_base (whileDo_again.mp hb).2).trans hI
  · rw [(whileDo_leave.mp hb).2]
    exact hI

theorem enqueue_valid {env : Env} {q q' : PIEPacketQueue W} {p : QueuedPacket} (hq : q.base.Valid)
    (hp : W.Fits p.size) (h : q.enqueue env p = .ok q') : q'.base.Valid := by
  simp only [enqueue, bind_eq_ok] at h
  obtain ⟨q₁, hcalc, h⟩ := h
  have hq₁ : q₁.base.Valid := by rw [calculateDropProb_base hcalc]; exact hq
  simp only [offer, bind_eq_ok] at h
  obtain ⟨b, -, h⟩ := h
  cases b
  · cases h
    exact hq₁
  · simp only [if_true, bind_eq_ok] at h
    obtain ⟨d, -, u, hg, h⟩ := h
    cases h
    cases d
    · exact DroppingPacketQueue.accept_valid hq₁.fits hp hg
    · exact hq₁

theorem startMeasurement_base (now sizeBytes : Nat) (q : PIEPacketQueue W) :
    (q.startMeasurement now sizeBytes).base = q.base := by
  unfold startMeasurement
  split <;> rfl

theorem countDeparture_base (now sizeBytes size : Nat) (q : PIEPacketQueue W) :
    (q.countDeparture now sizeBytes size).base = q.base := by
  unfold countDeparture
  split
  · rfl
  · dsimp only
    split <;> rfl

theorem dequeue_base {env : Env} {q q' : PIEPacketQueue W} {p : QueuedPacket}
    (h : q.dequeue env = .ok (p, q')) : q.base.dequeue = .ok (p, q'.base) := by
  simp only [dequeue, takeOut, bind_eq_ok] at h
  obtain ⟨⟨ret, q₁⟩, ⟨⟨ret', base⟩, hd, n, -, hout⟩, q₂, hcalc, h⟩ := h
  cases hout
  cases h
  rw [hd, calculateDropProb_base hcalc, countDeparture_base, startMeasurement_base]

end PIEPacketQueue

/-! ## The queue with a timer -/

/-- The same queue driven by a timer: how many ticks have fired is kept
beside it. -/
structure TimedPie (W : Arith) where
  queue : PIEPacketQueue W
  fired : Nat

namespace TimedPie

open PIEPacketQueue

variable {W : Arith}

/-- The ticks that come before the time `t` fire. -/
def advance (start t : Nat) (r : TimedPie W) : Except Fault (TimedPie W) := do
  let n := ticksBefore start t
  let q ← ticks (n - r.fired) r.queue
  return ⟨q, n⟩

/-- The control state that each enqueue of a run consults, with a timer
started at `start`. -/
def controls (start : Nat) : List QueueCall → TimedPie W → Except Fault (List PieControl)
  | [], _ => .ok []
  | .enqueue env p :: calls, r => do
      let r ← r.advance start env.now
      let q ← r.queue.offer env.draw p
      let cs ← controls start calls ⟨q, r.fired⟩
      return r.queue.control :: cs
  | .dequeue env :: calls, r => do
      let r ← r.advance start env.now
      let (_, q) ← r.queue.takeOut env.now
      let r ← advance start env.later ⟨q, r.fired⟩
      controls start calls r

end TimedPie

namespace PIEPacketQueue

variable {W : Arith}

/-- The control state that each enqueue of a run consults. -/
def controls : List QueueCall → PIEPacketQueue W → Except Fault (List PieControl)
  | [], _ => .ok []
  | .enqueue env p :: calls, q => do
      let q ← q.calculateDropProb env.now
      let q' ← q.offer env.draw p
      let cs ← controls calls q'
      return q.control :: cs
  | .dequeue env :: calls, q => do
      let (_, q') ← q.dequeue env
      controls calls q'

/-- The clock readings of a run do not decrease, from `prev` on, and fit in a
`uint64_t`. -/
def ClockOk : Nat → List QueueCall → Prop
  | _, [] => True
  | prev, .enqueue env _ :: calls => prev ≤ env.now ∧ env.now < 2 ^ 64 ∧ ClockOk env.now calls
  | prev, .dequeue env :: calls =>
      prev ≤ env.now ∧ env.now ≤ env.later ∧ env.later < 2 ^ 64 ∧ ClockOk env.later calls

instance decidableClockOk : ∀ prev calls, Decidable (ClockOk prev calls)
  | _, [] => .isTrue trivial
  | prev, .enqueue env _ :: calls =>
      have := decidableClockOk env.now calls
      inferInstanceAs (Decidable (prev ≤ env.now ∧ env.now < 2 ^ 64 ∧ ClockOk env.now calls))
  | prev, .dequeue env :: calls =>
      have := decidableClockOk env.later calls
      inferInstanceAs (Decidable
        (prev ≤ env.now ∧ env.now ≤ env.later ∧ env.later < 2 ^ 64 ∧ ClockOk env.later calls))

/-- No tick falls due between a dequeue and the clock reading before it. -/
def QuietDequeues (start : Nat) : Nat → List QueueCall → Prop
  | _, [] => True
  | _, .enqueue env _ :: calls => QuietDequeues start env.now calls
  | prev, .dequeue env :: calls =>
      ticksBefore start env.now = ticksBefore start prev ∧ QuietDequeues start env.later calls

/-- Where the code's queue stands at the clock reading `prev`: all the ticks
before it have been replayed. -/
structure UpToDate (start prev : Nat) (q : PIEPacketQueue W) : Prop where
  start_le : start ≤ prev
  prev_lt : prev < 2 ^ 64
  lastUpdate : q.lastUpdate = start + tUpdate * ticksBefore start prev

/-- Replaying up to `t` is what the timer does in the same stretch. -/
theorem UpToDate.advance {start prev t : Nat} {q : PIEPacketQueue W}
    (h : UpToDate start prev q) (hle : prev ≤ t) (ht : t < 2 ^ 64) :
    TimedPie.advance start t ⟨q, ticksBefore start prev⟩
      = (q.calculateDropProb t).map (fun q' => ⟨q', ticksBefore start t⟩) ∧
    ∀ q', q.calculateDropProb t = .ok q' → UpToDate start t q' := by
  have hlast := ticksBefore_le h.start_le
  have hcount : ticksBefore q.lastUpdate t = ticksBefore start t - ticksBefore start prev := by
    have := h.start_le
    rw [h.lastUpdate]
    simp only [ticksBefore, tUpdate]
    omega
  have heq := calculateDropProb_eq_ticks (q := q) ht (by rw [h.lastUpdate]; omega)
  rw [hcount] at heq
  have hmono := ticksBefore_mono start hle
  have hbound := ticksBefore_le (Nat.le_trans h.start_le hle)
  constructor
  · rw [TimedPie.advance, heq]
    cases ticks (ticksBefore start t - ticksBefore start prev) q <;> rfl
  · intro q' hq'
    rw [heq] at hq'
    have hsum : start + tUpdate * ticksBefore start prev
        + tUpdate * (ticksBefore start t - ticksBefore start prev)
        = start + tUpdate * ticksBefore start t := by
      rw [Nat.add_assoc, ← Nat.mul_add, Nat.add_sub_cancel' hmono]
    refine ⟨Nat.le_trans h.start_le hle, ht, ?_⟩
    rw [ticks_lastUpdate hq' (by rw [h.lastUpdate, hsum]; omega), h.lastUpdate, hsum]

theorem controls_eq_timed_of_upToDate {start : Nat} (calls : List QueueCall) :
    ∀ {prev : Nat} {q : PIEPacketQueue W}, UpToDate start prev q → ClockOk prev calls →
      QuietDequeues start prev calls →
      q.controls calls = TimedPie.controls start calls ⟨q, ticksBefore start prev⟩ := by
  induction calls with
  | nil => intro prev q _ _ _; rfl
  | cons c calls ih =>
      intro prev q hq hclock hquiet
      cases c with
      | enqueue env p =>
          obtain ⟨hle, hlt, hclock⟩ := hclock
          obtain ⟨hadv, hup⟩ := hq.advance hle hlt
          rw [controls, TimedPie.controls, hadv]
          cases hc : q.calculateDropProb env.now with
          | error e => rfl
          | ok q₁ =>
              simp only [ok_bind, Except.map]
              cases ho : q₁.offer env.draw p with
              | error e => rfl
              | ok q₂ =>
                  have hup₁ := hup q₁ hc
                  have hup₂ : UpToDate start env.now q₂ :=
                    ⟨hup₁.start_le, hlt, by rw [offer_lastUpdate ho, hup₁.lastUpdate]⟩
                  simp only [ok_bind, ih hup₂ hclock hquiet]
      | dequeue env =>
          obtain ⟨hle, hle', hlt, hclock⟩ := hclock
          obtain ⟨htick, hquiet⟩ := hquiet
          have hstay : TimedPie.advance start env.now ⟨q, ticksBefore start prev⟩
              = .ok ⟨q, ticksBefore start prev⟩ := by
            simp [TimedPie.advance, htick, ticks]
          rw [controls, TimedPie.controls, hstay, dequeue, ok_bind]
          cases ht : q.takeOut env.now with
          | error e => rfl
          | ok r =>
              obtain ⟨p, q₁⟩ := r
              have hup₁ : UpToDate start env.now q₁ :=
                ⟨Nat.le_trans hq.start_le hle, by omega,
                  by rw [takeOut_lastUpdate ht, hq.lastUpdate, htick]⟩
              obtain ⟨hadv, hup⟩ := hup₁.advance hle' hlt
              rw [htick] at hadv
              simp only [ok_bind, hadv]
              cases hc : q₁.calculateDropProb env.later with
              | error e => rfl
              | ok q₂ => simpa [Except.map] using ih (hup q₂ hc) hclock hquiet

/-- **Catch-up against a timer.** In a run in which no tick falls due between
a dequeue and the clock reading before it, every enqueue consults the control
state that a timer would have left. -/
theorem controls_eq_timed (W : Arith) (l : Limits) (qdelayRef maxBurst start : Nat)
    (hstart : start < 2 ^ 64) (calls : List QueueCall) (hclock : ClockOk start calls)
    (hquiet : QuietDequeues start start calls) :
    (initial W l qdelayRef maxBurst start).controls calls
      = TimedPie.controls start calls ⟨initial W l qdelayRef maxBurst start, 0⟩ := by
  have hup : UpToDate start start (initial W l qdelayRef maxBurst start) :=
    ⟨le_refl _, hstart, by simp [initial, ticksBefore_start]⟩
  simpa [ticksBefore_start] using controls_eq_timed_of_upToDate calls hup hclock hquiet

theorem controls_eq_timed_burst :
    (initial .machine ⟨1000, 0⟩ 20 100 0).controls
        [.enqueue ⟨5, 5, 0⟩ ⟨5, [1]⟩, .dequeue ⟨25, 70, 0⟩, .enqueue ⟨95, 95, 0⟩ ⟨95, [2]⟩]
      = TimedPie.controls 0
        [.enqueue ⟨5, 5, 0⟩ ⟨5, [1]⟩, .dequeue ⟨25, 70, 0⟩, .enqueue ⟨95, 95, 0⟩ ⟨95, [2]⟩]
        ⟨initial .machine ⟨1000, 0⟩ 20 100 0, 0⟩ :=
  controls_eq_timed .machine ⟨1000, 0⟩ 20 100 0 (by decide)
    [.enqueue ⟨5, 5, 0⟩ ⟨5, [1]⟩, .dequeue ⟨25, 70, 0⟩, .enqueue ⟨95, 95, 0⟩ ⟨95, [2]⟩]
    (by decide) (by simp [QuietDequeues, ticksBefore, tUpdate])

/-- 24 full-size packets at once, 11 of them out by 20 ms, the next one at
40 ms: the tick at 30 ms falls due in between. -/
def lateUpdate : List QueueCall :=
  List.replicate 24 (.enqueue ⟨0, 0, 0⟩ ⟨0, List.replicate 1504 0⟩)
    ++ .dequeue ⟨10, 10, 0⟩ :: List.replicate 10 (.dequeue ⟨20, 20, 0⟩)
    ++ [.dequeue ⟨40, 40, 0⟩, .enqueue ⟨41, 41, 0⟩ ⟨41, List.replicate 1504 0⟩]

/-- The last enqueue consults a drop probability of 109/1024; with the timer,
whose tick sees one packet more in the queue, it is 15/128. -/
theorem lateUpdate_differs :
    ClockOk 0 lateUpdate ∧
      ∃ cs cs', (initial .machine ⟨1000, 0⟩ 1 1 0).controls lateUpdate = .ok cs ∧
        TimedPie.controls 0 lateUpdate ⟨initial .machine ⟨1000, 0⟩ 1 1 0, 0⟩ = .ok cs' ∧
        cs ≠ cs' := by
  refine ⟨by decide, ?_⟩
  have hcode : ((initial .machine ⟨1000, 0⟩ 1 1 0).controls lateUpdate).toOption.any
      (fun cs => decide (cs.getLast? = some ⟨109 / 1024, 0, 0⟩)) = true := by decide +kernel
  have htimer : (TimedPie.controls 0 lateUpdate
      ⟨initial .machine ⟨1000, 0⟩ 1 1 0, 0⟩).toOption.any
      (fun cs => decide (cs.getLast? = some ⟨15 / 128, 0, 0⟩)) = true := by decide +kernel
  cases hc : (initial .machine ⟨1000, 0⟩ 1 1 0).controls lateUpdate with
  | error e => rw [hc] at hcode; cases hcode
  | ok cs =>
      cases ht : TimedPie.controls 0 lateUpdate ⟨initial .machine ⟨1000, 0⟩ 1 1 0, 0⟩ with
      | error e => rw [ht] at htimer; cases htimer
      | ok cs' =>
          rw [hc] at hcode
          rw [ht] at htimer
          refine ⟨cs, cs', rfl, rfl, fun heq => ?_⟩
          have hlast := (of_decide_eq_true hcode).symm.trans (heq ▸ of_decide_eq_true htimer)
          simp only [Option.some.injEq, PieControl.mk.injEq] at hlast
          norm_num at hlast

end PIEPacketQueue

end Mahimahi
