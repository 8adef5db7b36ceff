import Mathlib.Algebra.Group.Nat.Even
import Mathlib.Data.Nat.Find
import Mathlib.Tactic.Ring
import Mahimahi.Loop
import Mahimahi.Machine

/-!
# The link that is on and off by turns

The link is off until its first switch, and every draw of the random number
generator says how long it is to the next one. So the draws fix the instants
of all switches (`SwitchSchedule`), and the link is off as long as an even
number of them has passed (`SwitchSchedule.IsOff`).

The code follows the schedule in one of its calls only. `wait_time` makes up
for the switches that the clock has passed, and leaves the link as the schedule
has it at that reading (`OnSchedule.waitTime`); `read_packet` looks at the link
without a look at the clock. A packet thus meets the link of the last
`wait_time`, and it is treated as the schedule says if and only if the switches
since then cancel out (`drops_iff_isOff_iff`).
-/

namespace Mahimahi

/-! ## The queue that may drop what it reads -/

/-- `LossQueue`; whether a packet is dropped is up to the class over it. -/
structure LossQueue where
  packetQueue : List Bytes
  deriving DecidableEq, Repr

namespace LossQueue

def readPacket (dropPacket : Bool) (contents : Bytes) (q : LossQueue) : LossQueue :=
  if dropPacket then q else { q with packetQueue := q.packetQueue ++ [contents] }

/-- What is written, and the queue after it. -/
def writePackets (q : LossQueue) : List Bytes × LossQueue :=
  (q.packetQueue, { q with packetQueue := [] })

def waitTime (q : LossQueue) : Nat := if q.packetQueue.isEmpty then 2 ^ 16 - 1 else 0

theorem readPacket_eq_self_iff {dropPacket : Bool} {contents : Bytes} {q : LossQueue} :
    q.readPacket dropPacket contents = q ↔ dropPacket = true := by
  cases dropPacket with
  | true => simp [readPacket]
  | false =>
      have hlonger : q.packetQueue ++ [contents] ≠ q.packetQueue := by simp
      refine ⟨fun h => absurd (congrArg packetQueue h) hlonger, fun h => by cases h⟩

end LossQueue

/-! ## The schedule -/

/-- `bound`: no duration is longer than `1 << 30`. -/
def bound (x : Nat) : Nat := if 2 ^ 30 < x then 2 ^ 30 else x

theorem bound_le (x : Nat) : bound x ≤ 2 ^ 30 := by
  unfold bound
  split <;> omega

/-- The instant of switch `k`, when the first one is due at `start`. -/
def switchTime (start : Nat) (draw : Nat → Nat) : Nat → Nat
  | 0 => start
  | k + 1 => switchTime start draw k + bound (draw k)

theorem switchTime_mono (start : Nat) (draw : Nat → Nat) {j k : Nat} (h : j ≤ k) :
    switchTime start draw j ≤ switchTime start draw k := by
  induction h with
  | refl => exact Nat.le_refl _
  | step _ ih => exact ih.trans (Nat.le_add_right _ _)

/-- What the generator draws after the link has been made at `start`: durations of
being on and off by turns, which together exceed every bound. -/
structure SwitchSchedule where
  start : Nat
  draw : Nat → Nat
  unbounded : ∀ t, ∃ k, t < switchTime start draw k

namespace SwitchSchedule

variable (S : SwitchSchedule)

/-- How many switches there are up to the instant `t`. -/
def count (t : Nat) : Nat := Nat.find (S.unbounded t)

/-- At its start the link is off, and every switch turns it over. -/
def IsOff (t : Nat) : Prop := Even (S.count t)

instance (t : Nat) : Decidable (S.IsOff t) := inferInstanceAs (Decidable (Even _))

variable {S}

theorem switchTime_le_iff {k t : Nat} : switchTime S.start S.draw k ≤ t ↔ k < S.count t := by
  rw [count, Nat.lt_find_iff]
  constructor
  · intro hk j hj
    exact Nat.not_lt.mpr ((switchTime_mono S.start S.draw hj).trans hk)
  · intro h
    exact Nat.not_lt.mp (h k (Nat.le_refl k))

theorem count_mono {s t : Nat} (h : s ≤ t) : S.count s ≤ S.count t := by
  by_contra hlt
  have hs := switchTime_le_iff.mpr (Nat.not_le.mp hlt)
  exact absurd (switchTime_le_iff.mp (hs.trans h)) (Nat.lt_irrefl _)

theorem count_eq {k t : Nat} (hlast : switchTime S.start S.draw k ≤ t)
    (hnext : t < switchTime S.start S.draw (k + 1)) : S.count t = k + 1 := by
  have hle : k < S.count t := switchTime_le_iff.mp hlast
  have hge : ¬ k + 1 < S.count t := fun h => absurd (switchTime_le_iff.mpr h) (Nat.not_le.mpr hnext)
  omega

end SwitchSchedule

/-! ## The link -/

structure SwitchingLink extends LossQueue where
  linkIsOn : Bool
  /-- A `uint64_t`. -/
  nextSwitchTime : Nat
  /-- How many numbers `prng_` has drawn. -/
  drawn : Nat
  deriving DecidableEq, Repr

namespace SwitchingLink

/-- The link as it is made at the clock reading `start`. -/
def initial (start : Nat) : SwitchingLink where
  packetQueue := []
  linkIsOn := false
  nextSwitchTime := start
  drawn := 0

def dropPacket (s : SwitchingLink) : Bool := !s.linkIsOn

def readPacket (contents : Bytes) (s : SwitchingLink) : SwitchingLink :=
  { s with toLossQueue := s.toLossQueue.readPacket s.dropPacket contents }

def writePackets (s : SwitchingLink) : List Bytes × SwitchingLink :=
  (s.toLossQueue.writePackets.1, { s with toLossQueue := s.toLossQueue.writePackets.2 })

/-- The body of the loop in `wait_time`. -/
def switch (draw : Nat → Nat) (s : SwitchingLink) : SwitchingLink :=
  { s with
    linkIsOn := !s.linkIsOn
    nextSwitchTime := u64 (s.nextSwitchTime + bound (draw s.drawn))
    drawn := s.drawn + 1 }

/-- `next_switch_time_ <= now`. -/
def due (now : Nat) (s : SwitchingLink) : Bool := decide (s.nextSwitchTime ≤ now)

/-- `wait_time`, with at most `fuel` turns of its loop. -/
def waitTime (draw : Nat → Nat) (fuel now : Nat) (s : SwitchingLink) :
    Except Fault (Nat × SwitchingLink) := do
  let s ← loop .diverges (whileDo (due now) fun s => .ok (s.switch draw)) fuel s
  if s.toLossQueue.waitTime = 0 then
    return (0, s)
  if 2 ^ 16 - 1 < sub64 s.nextSwitchTime now then
    return (2 ^ 16 - 1, s)
  return (sub64 s.nextSwitchTime now, s)

/-- What the ferry loop calls, with the clock reading of the call. -/
inductive Call where
  | waitTime (now : Nat)
  | readPacket (now : Nat) (contents : Bytes)
  | writePackets
  deriving DecidableEq, Repr

/-- The link after a call. -/
def call (draw : Nat → Nat) (fuel : Nat) : Call → SwitchingLink → Except Fault SwitchingLink
  | .waitTime now, s => do
      let (_, s) ← s.waitTime draw fuel now
      return s
  | .readPacket _ contents, s => .ok (s.readPacket contents)
  | .writePackets, s => .ok s.writePackets.2

/-- The link after a list of calls. -/
def afterAll (draw : Nat → Nat) (fuel : Nat) : List Call → SwitchingLink → Except Fault SwitchingLink
  | [], s => .ok s
  | c :: calls, s => do
      let s ← s.call draw fuel c
      afterAll draw fuel calls s

/-- The readings do not go back behind `last`, and `uint64_t` has room for one more
duration after each. -/
def Chronological : Nat → List Call → Prop
  | _, [] => True
  | last, .waitTime now :: calls => last ≤ now ∧ now + 2 ^ 30 < 2 ^ 64 ∧ Chronological now calls
  | last, .readPacket now _ :: calls => last ≤ now ∧ now + 2 ^ 30 < 2 ^ 64 ∧ Chronological now calls
  | last, .writePackets :: calls => Chronological last calls

/-! ## The link follows the schedule -/

/-- The link has made the first `k` switches of the schedule. -/
structure OnSchedule (S : SwitchSchedule) (k : Nat) (s : SwitchingLink) : Prop where
  drawn : s.drawn = k
  nextSwitchTime : s.nextSwitchTime = switchTime S.start S.draw k
  linkIsOn : s.linkIsOn = true ↔ ¬ Even k

section

variable {S : SwitchSchedule} {k now fuel : Nat} {s s' : SwitchingLink}

theorem onSchedule_initial : OnSchedule S 0 (initial S.start) := ⟨rfl, rfl, by simp [initial]⟩

theorem OnSchedule.readPacket (h : OnSchedule S k s) (contents : Bytes) :
    OnSchedule S k (s.readPacket contents) := ⟨h.drawn, h.nextSwitchTime, h.linkIsOn⟩

theorem OnSchedule.writePackets (h : OnSchedule S k s) : OnSchedule S k s.writePackets.2 :=
  ⟨h.drawn, h.nextSwitchTime, h.linkIsOn⟩

theorem OnSchedule.dropPacket (h : OnSchedule S k s) : s.dropPacket = true ↔ Even k := by
  rw [SwitchingLink.dropPacket, Bool.not_eq_true', ← Bool.not_eq_true, h.linkIsOn, not_not]

theorem OnSchedule.due_iff (h : OnSchedule S k s) : SwitchingLink.due now s = true ↔ k < S.count now := by
  rw [SwitchingLink.due, decide_eq_true_eq, h.nextSwitchTime, SwitchSchedule.switchTime_le_iff]

theorem OnSchedule.switch (h : OnSchedule S k s) (hdue : k < S.count now)
    (hroom : now + 2 ^ 30 < 2 ^ 64) : OnSchedule S (k + 1) (s.switch S.draw) := by
  have hpast : switchTime S.start S.draw k ≤ now := SwitchSchedule.switchTime_le_iff.mpr hdue
  have hbound := bound_le (S.draw k)
  refine ⟨congrArg (· + 1) h.drawn, ?_, ?_⟩
  · change u64 (s.nextSwitchTime + bound (S.draw s.drawn)) = _
    rw [h.drawn, h.nextSwitchTime, switchTime, u64_of_lt (by omega)]
  · change (!s.linkIsOn) = true ↔ _
    rw [Bool.not_eq_true', ← Bool.not_eq_true, h.linkIsOn, Nat.even_add_one]

/-- The loop ends with the switches up to the reading made. -/
theorem OnSchedule.waitTime (h : OnSchedule S k s) (hk : k ≤ S.count now)
    (hroom : now + 2 ^ 30 < 2 ^ 64) (hfuel : S.count now < fuel) :
    ∃ w s', s.waitTime S.draw fuel now = .ok (w, s') ∧ OnSchedule S (S.count now) s' := by
  obtain ⟨s', hloop, hs'⟩ : ∃ s', loop Fault.diverges
      (whileDo (due now) fun s => .ok (s.switch S.draw)) fuel s = .ok s' ∧
      OnSchedule S (S.count now) s' := by
    refine loop_total Fault.diverges (I := fun s => s.drawn ≤ S.count now ∧ OnSchedule S s.drawn s)
      (μ := fun s => S.count now - s.drawn) ?_ ⟨h.drawn.le.trans hk, h.drawn.symm ▸ h⟩ (by omega)
    rintro s ⟨hle, hs⟩
    rcases Nat.lt_or_eq_of_le hle with hlt | heq
    · have hnext := hs.switch hlt hroom
      refine .inl ⟨s.switch S.draw, whileDo_again.mpr ⟨hs.due_iff.mpr hlt, rfl⟩, ⟨?_, ?_⟩, ?_⟩
      · rw [hnext.drawn]
        exact hlt
      · rw [hnext.drawn]
        exact hnext
      · rw [hnext.drawn]
        omega
    · have hnot : ¬ due now s = true := fun hdue => absurd (hs.due_iff.mp hdue) (by omega)
      refine .inr ⟨s, whileDo_leave.mpr ⟨?_, rfl⟩, heq ▸ hs⟩
      exact Bool.not_eq_true _ ▸ hnot
  unfold SwitchingLink.waitTime
  rw [hloop, ok_bind]
  by_cases hpending : s'.toLossQueue.waitTime = 0
  · rw [if_pos hpending]
    exact ⟨_, _, rfl, hs'⟩
  rw [if_neg hpending]
  by_cases hfar : 2 ^ 16 - 1 < sub64 s'.nextSwitchTime now
  · rw [if_pos hfar]
    exact ⟨_, _, rfl, hs'⟩
  · rw [if_neg hfar]
    exact ⟨_, _, rfl, hs'⟩

end

/-! ## Runs -/

/-- The reading of the last `wait_time`. -/
def lastWait : List Call → Option Nat
  | [] => none
  | .waitTime now :: calls => some ((lastWait calls).getD now)
  | _ :: calls => lastWait calls

/-- The last reading of all, `last` if there is none. -/
def lastReading : Nat → List Call → Nat
  | last, [] => last
  | _, .waitTime now :: calls => lastReading now calls
  | _, .readPacket now _ :: calls => lastReading now calls
  | last, .writePackets :: calls => lastReading last calls

theorem Chronological.le_lastReading : ∀ {calls : List Call} {last : Nat},
    Chronological last calls → last ≤ lastReading last calls
  | [], _, _ => Nat.le_refl _
  | .waitTime _ :: _, _, h => h.1.trans h.2.2.le_lastReading
  | .readPacket _ _ :: _, _, h => h.1.trans h.2.2.le_lastReading
  | .writePackets :: calls, last, h => by
      have hcalls : Chronological last calls := h
      exact hcalls.le_lastReading

theorem Chronological.append : ∀ {calls rest : List Call} {last : Nat},
    Chronological last (calls ++ rest) →
    Chronological last calls ∧ Chronological (lastReading last calls) rest
  | [], _, _, h => ⟨trivial, h⟩
  | .waitTime _ :: _, _, _, ⟨hle, hroom, h⟩ => ⟨⟨hle, hroom, h.append.1⟩, h.append.2⟩
  | .readPacket _ _ :: _, _, _, ⟨hle, hroom, h⟩ => ⟨⟨hle, hroom, h.append.1⟩, h.append.2⟩
  | .writePackets :: calls, rest, last, h => by
      have hcalls : Chronological last (calls ++ rest) := h
      exact hcalls.append

theorem lastReading_append (calls rest : List Call) (last : Nat) :
    lastReading last (calls ++ rest) = lastReading (lastReading last calls) rest := by
  induction calls generalizing last with
  | nil => rfl
  | cons c calls ih =>
      cases c with
      | waitTime now => exact ih now
      | readPacket now contents => exact ih now
      | writePackets => exact ih last

/-- The last `wait_time` of a run leaves the link as the schedule has it. -/
theorem OnSchedule.afterAll {S : SwitchSchedule} {fuel : Nat} :
    ∀ {calls : List Call} {last k : Nat} {s : SwitchingLink}, OnSchedule S k s →
    k ≤ S.count last → Chronological last calls → S.count (lastReading last calls) < fuel →
    ∃ s', afterAll S.draw fuel calls s = .ok s' ∧
      OnSchedule S ((lastWait calls).elim k S.count) s' ∧
      (lastWait calls).elim k S.count ≤ S.count (lastReading last calls)
  | [], _, _, s, h, hk, _, _ => ⟨s, rfl, h, hk⟩
  | .waitTime now :: calls, last, k, s, h, hk, ⟨hle, hroom, hcalls⟩, hfuel => by
      have hnow : S.count now < fuel :=
        (SwitchSchedule.count_mono hcalls.le_lastReading).trans_lt hfuel
      have hlater := hk.trans (SwitchSchedule.count_mono hle)
      obtain ⟨w, s₁, hcall, h₁⟩ := h.waitTime hlater hroom hnow
      obtain ⟨s', hrest, h', hk'⟩ := h₁.afterAll (Nat.le_refl _) hcalls hfuel
      have hwait : (lastWait (.waitTime now :: calls)).elim k S.count
          = (lastWait calls).elim (S.count now) S.count := by
        cases hlast : lastWait calls <;> simp [lastWait, hlast]
      rw [hwait]
      refine ⟨s', ?_, h', hk'⟩
      simp only [SwitchingLink.afterAll, call, hcall, ok_bind, pure_eq_ok]
      exact hrest
  | .readPacket now contents :: calls, last, k, s, h, hk, ⟨hle, _, hcalls⟩, hfuel => by
      have hlater := hk.trans (SwitchSchedule.count_mono hle)
      obtain ⟨s', hrest, h', hk'⟩ := (h.readPacket contents).afterAll hlater hcalls hfuel
      exact ⟨s', hrest, h', hk'⟩
  | .writePackets :: calls, last, k, s, h, hk, hall, hfuel => by
      have hcalls : Chronological last calls := hall
      obtain ⟨s', hrest, h', hk'⟩ := h.writePackets.afterAll hk hcalls hfuel
      exact ⟨s', hrest, h', hk'⟩

/-- The packet does not get into the queue. -/
def Drops (contents : Bytes) (s : SwitchingLink) : Prop :=
  (s.readPacket contents).packetQueue = s.packetQueue

theorem drops_iff {contents : Bytes} {s : SwitchingLink} :
    s.Drops contents ↔ s.dropPacket = true := by
  constructor
  · intro h
    exact LossQueue.readPacket_eq_self_iff.mp (congrArg LossQueue.mk h)
  · intro h
    exact congrArg LossQueue.packetQueue (LossQueue.readPacket_eq_self_iff.mpr h)

end SwitchingLink

/-- How many switches there are after `s`, or from the start on, and up to `t`. -/
def SwitchSchedule.countSince (S : SwitchSchedule) (s : Option Nat) (t : Nat) : Nat :=
  S.count t - s.elim 0 S.count

namespace SwitchingLink

/-- Every call returns, and a packet that comes at `t` is treated as the schedule has
the link at `t` if and only if the switches since the last `wait_time` cancel out. -/
theorem drops_iff_isOff_iff (S : SwitchSchedule) {calls : List Call}
    (hcalls : Chronological S.start calls) :
    ∃ n, ∀ fuel, n ≤ fuel →
      (∃ s, afterAll S.draw fuel calls (initial S.start) = .ok s) ∧
      ∀ before t contents rest, calls = before ++ .readPacket t contents :: rest →
        ∃ s, afterAll S.draw fuel before (initial S.start) = .ok s ∧
          ((s.Drops contents ↔ S.IsOff t) ↔ Even (S.countSince (lastWait before) t)) := by
  refine ⟨S.count (lastReading S.start calls) + 1, fun fuel hfuel => ⟨?_, ?_⟩⟩
  · obtain ⟨s, hs, -⟩ := onSchedule_initial.afterAll (Nat.zero_le _) hcalls hfuel
    exact ⟨s, hs⟩
  intro before t contents rest heq
  rw [heq] at hcalls hfuel
  obtain ⟨hbefore, hle, -, hrest⟩ := hcalls.append
  rw [lastReading_append] at hfuel
  have hlast : lastReading S.start before
      ≤ lastReading (lastReading S.start before) (.readPacket t contents :: rest) :=
    hle.trans hrest.le_lastReading
  obtain ⟨s, hs, h, hk⟩ := onSchedule_initial.afterAll (Nat.zero_le _) hbefore
    ((SwitchSchedule.count_mono hlast).trans_lt hfuel)
  refine ⟨s, hs, ?_⟩
  have hmade := hk.trans (SwitchSchedule.count_mono hle)
  rw [drops_iff, h.dropPacket, SwitchSchedule.IsOff, SwitchSchedule.countSince,
    Nat.even_sub hmade]
  tauto

/-! ## A switch between the two calls -/

theorem everyTenMs_switchTime (k : Nat) : switchTime 0 (fun _ => 10) k = 10 * k := by
  induction k with
  | zero => rfl
  | succ k ih => rw [switchTime, ih, bound, if_neg (by decide), Nat.mul_succ]

/-- Ten milliseconds on, ten milliseconds off, from 0 on. -/
def everyTenMs : SwitchSchedule where
  start := 0
  draw := fun _ => 10
  unbounded t := ⟨t + 1, by rw [everyTenMs_switchTime]; omega⟩

theorem everyTenMs_count (k : Nat) {t : Nat} (hlower : 10 * k ≤ t) (hupper : t < 10 * (k + 1)) :
    everyTenMs.count t = k + 1 :=
  SwitchSchedule.count_eq ((everyTenMs_switchTime k).trans_le hlower)
    (hupper.trans_eq (everyTenMs_switchTime (k + 1)).symm)

/-- The link has been told of the switch at 0 only when a packet comes at 10. It goes
through, though the link is off from 10 to 20. -/
theorem passes_while_off :
    Chronological everyTenMs.start [.waitTime 0, .readPacket 10 [1]] ∧
      (∃ s, afterAll everyTenMs.draw 2 [.waitTime 0] (initial everyTenMs.start) = .ok s ∧
        ¬ s.Drops [1]) ∧
      everyTenMs.IsOff 10 := by
  refine ⟨by simp [Chronological, everyTenMs], ⟨⟨⟨[]⟩, true, 10, 1⟩, rfl, ?_⟩, ?_⟩
  · rw [drops_iff]
    exact Bool.false_ne_true
  · have hcount : everyTenMs.count 10 = 2 := everyTenMs_count 1 (by decide) (by decide)
    rw [SwitchSchedule.IsOff, hcount]
    decide

/-- Told of the switch at 10, the link drops the packet at 15, rightly, and the one at 21,
though it is on again from 20. -/
theorem drops_iff_isOff_iff_everyTenMs :
    ∃ n, ∀ fuel, n ≤ fuel →
      (∃ s, afterAll everyTenMs.draw fuel [.waitTime 0, .waitTime 12] (initial everyTenMs.start)
          = .ok s ∧ s.Drops [1] ∧ everyTenMs.IsOff 15) ∧
        ∃ s, afterAll everyTenMs.draw fuel [.waitTime 0, .waitTime 12, .readPacket 15 [1]]
          (initial everyTenMs.start) = .ok s ∧ s.Drops [2] ∧ ¬ everyTenMs.IsOff 21 := by
  have hcalls : Chronological everyTenMs.start
      [.waitTime 0, .waitTime 12, .readPacket 15 [1], .readPacket 21 [2]] := by
    simp [Chronological, everyTenMs]
  obtain ⟨n, hn⟩ := drops_iff_isOff_iff everyTenMs hcalls
  have h12 : everyTenMs.count 12 = 2 := everyTenMs_count 1 (by decide) (by decide)
  have h15 : everyTenMs.count 15 = 2 := everyTenMs_count 1 (by decide) (by decide)
  have h21 : everyTenMs.count 21 = 3 := everyTenMs_count 2 (by decide) (by decide)
  have hoff : everyTenMs.IsOff 15 := by
    rw [SwitchSchedule.IsOff, h15]
    decide
  have hon : ¬ everyTenMs.IsOff 21 := by
    rw [SwitchSchedule.IsOff, h21]
    decide
  refine ⟨n, fun fuel hfuel => ?_⟩
  obtain ⟨-, hdrops⟩ := hn fuel hfuel
  obtain ⟨s, hs, hiff⟩ := hdrops [.waitTime 0, .waitTime 12] 15 [1] [.readPacket 21 [2]] rfl
  obtain ⟨s', hs', hiff'⟩ :=
    hdrops [.waitTime 0, .waitTime 12, .readPacket 15 [1]] 21 [2] [] rfl
  refine ⟨⟨s, hs, ?_, hoff⟩, s', hs', ?_, hon⟩
  · -- no switch between 12 and 15
    refine (hiff.mpr ?_).mpr hoff
    show Even (everyTenMs.count 15 - everyTenMs.count 12)
    rw [h15, h12]
    decide
  · -- one switch between 12 and 21
    have hodd : ¬ Even (everyTenMs.countSince (lastWait [.waitTime 0, .waitTime 12,
        .readPacket 15 [1]]) 21) := by
      show ¬ Even (everyTenMs.count 21 - everyTenMs.count 12)
      rw [h21, h12]
      decide
    by_contra hpasses
    exact hodd (hiff'.mp ⟨fun h => absurd h hpasses, fun h => absurd h hon⟩)

end SwitchingLink

end Mahimahi
