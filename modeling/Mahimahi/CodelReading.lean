import Mahimahi.Codel

/-!
# What CoDel makes of a clock reading

`dequeue` reads the clock when it is called, and the link calls it for a
delivery opportunity that may have been due some time before. This file says
when the time in between makes no difference: every test on the clock comes
out the same from the one time to the other (`Steady`), and where a time is
stored there is no time in between. `DequeueSteady` says so of all the tests
of a call, and `dequeue_of_steady` is that any reading in between then has
the same result and leaves the same queue.

The clock is tested in three places: `sojourn_time < target_` and
`now >= first_above_time_` in `dodequeue`, and `now >= drop_next_` in the
drop loop. It is stored in two: in `first_above_time_`, when the queue is
first found over the target, and in `drop_next_`, when `dequeue` begins to
drop.
-/

namespace Mahimahi

/-- The test comes out at every time from `t` to `now` as it does at `now`. -/
def Steady (t now : Nat) (test : Nat → Prop) : Prop :=
  ∀ r, t ≤ r → r ≤ now → (test r ↔ test now)

theorem steady_self (now : Nat) (test : Nat → Prop) : Steady now now test := by
  intro r ht hnow
  rw [Nat.le_antisymm hnow ht]

namespace CODELPacketQueue

variable {W : Arith} {t r now : Nat} {q : CODELPacketQueue W}

/-! ## One dodequeue call -/

/-- The tests of a `dodequeue` call are steady. The packet `p` at the head is
only looked at when more than `PACKET_SIZE` bytes are queued behind it. -/
def HeadSteady (t now : Nat) (q : CODELPacketQueue W) : Prop :=
  ∀ p base sizeBytes, q.base.dequeue = .ok (p, base) → base.empty = false →
    base.sizeBytes = .ok sizeBytes → packetSize < sizeBytes →
    Steady t now (sub64 · p.arrivalTime < q.target) ∧
      (q.target ≤ sub64 now p.arrivalTime →
        (q.firstAboveTime = 0 → t = now) ∧ Steady t now (q.firstAboveTime ≤ ·))

theorem dodequeue_of_steady (h : q.HeadSteady t now) (ht : t ≤ r) (hr : r ≤ now) :
    q.dodequeue r = q.dodequeue now := by
  unfold dodequeue
  cases hd : q.base.dequeue with
  | error e => rfl
  | ok head =>
      obtain ⟨p, base⟩ := head
      simp only [ok_bind]
      cases hempty : base.empty with
      | true => rfl
      | false =>
          cases hsize : base.sizeBytes with
          | error e => rfl
          | ok sizeBytes =>
              simp only [ok_bind, Bool.false_eq_true, if_false]
              by_cases hsmall : sizeBytes ≤ packetSize
              · rw [if_pos (.inr hsmall), if_pos (.inr hsmall)]
              · obtain ⟨hsojourn, habove⟩ := h p base sizeBytes hd hempty hsize (by omega)
                have hlow : sub64 r p.arrivalTime < q.target ↔ sub64 now p.arrivalTime < q.target :=
                  hsojourn r ht hr
                by_cases hnow : sub64 now p.arrivalTime < q.target
                · rw [if_pos (.inl (hlow.mpr hnow)), if_pos (.inl hnow)]
                · have hhigh : ¬(sub64 now p.arrivalTime < q.target ∨ sizeBytes ≤ packetSize) := by
                    simp only [hnow, hsmall, or_self, not_false_eq_true]
                  have hhigh' : ¬(sub64 r p.arrivalTime < q.target ∨ sizeBytes ≤ packetSize) := by
                    simp only [hlow, hnow, hsmall, or_self, not_false_eq_true]
                  rw [if_neg hhigh', if_neg hhigh]
                  obtain ⟨hset, hfirst⟩ := habove (Nat.le_of_not_lt hnow)
                  by_cases hzero : q.firstAboveTime = 0
                  · have : r = now := by have := hset hzero; omega
                    rw [this]
                  · have htest : q.firstAboveTime ≤ r ↔ q.firstAboveTime ≤ now := hfirst r ht hr
                    rw [if_neg hzero, if_neg hzero, decide_eq_decide.mpr htest]

/-! ## One dequeue call -/

/-- Wherever the drop loop goes, its tests are steady. -/
def LoopSteady (t now : Nat) (q : CODELPacketQueue W) : Prop :=
  ∀ s, Visits (whileDo (stillDropping now) (dropTurn now)) (q, []) s → s.1.dropping = true →
    Steady t now (s.1.dropNext ≤ ·) ∧ (s.1.dropNext ≤ now → s.1.HeadSteady t now)

/-- All the tests of a `dequeue` call are steady, and it does not begin to drop
at a time other than `t`. -/
structure DequeueSteady (t now : Nat) (q : CODELPacketQueue W) : Prop where
  head : q.HeadSteady t now
  dropsOn : ∀ res q₁, q.dodequeue now = .ok (res, q₁) → res.okToDrop = true →
    q₁.dropping = true → q₁.LoopSteady t now
  begins : ∀ res q₁, q.dodequeue now = .ok (res, q₁) → res.okToDrop = true →
    q₁.dropping = false → t = now

theorem dropTurn_of_steady {s : CODELPacketQueue W × List DodequeueResult}
    (h : s.1.HeadSteady t now) (ht : t ≤ r) (hr : r ≤ now) : dropTurn r s = dropTurn now s := by
  obtain ⟨q, rs⟩ := s
  simp only [dropTurn, dodequeue_of_steady h ht hr]

theorem dropLoop_of_steady (h : q.LoopSteady t now) (ht : t ≤ r) (hr : r ≤ now) :
    q.dropLoop r = q.dropLoop now := by
  refine loop_congr _ fun s hs => ?_
  obtain ⟨q', rs⟩ := s
  have hsteady := h _ hs
  cases hdrop : q'.dropping with
  | false => simp only [whileDo, stillDropping, hdrop, Bool.and_false, Bool.false_eq_true, if_false]
  | true =>
      obtain ⟨hnext, hhead⟩ := hsteady hdrop
      have hcond : stillDropping r (q', rs) = stillDropping now (q', rs) := by
        simp only [stillDropping, decide_eq_decide.mpr (hnext r ht hr)]
      cases hc : stillDropping now (q', rs) with
      | false => simp only [whileDo, hcond, hc, Bool.false_eq_true, if_false]
      | true =>
          have hdue : q'.dropNext ≤ now := by
            simp only [stillDropping, Bool.and_eq_true, decide_eq_true_eq] at hc
            exact hc.1
          simp only [whileDo, hcond, hc, if_true, dropTurn_of_steady (hhead hdue) ht hr]

/-- No reading from `t` to `now` makes a difference. -/
theorem dequeue_of_steady (h : q.DequeueSteady t now) (ht : t ≤ r) (hr : r ≤ now) :
    q.dequeue r = q.dequeue now := by
  have htrace : q.dequeueTrace r = q.dequeueTrace now := by
    unfold dequeueTrace
    rw [dodequeue_of_steady h.head ht hr]
    cases hd : q.dodequeue now with
    | error e => rfl
    | ok head =>
        obtain ⟨res, q₁⟩ := head
        simp only [ok_bind]
        cases hok : res.okToDrop with
        | false =>
            -- the loop does not turn once `dropping_` is off
            have hidle : ({ q₁ with dropping := false } : CODELPacketQueue W).LoopSteady t now := by
              intro s hs hdrop
              have hoff := hs.invariant (I := fun s => s.1.dropping = false) (fun s s' hI hb => by
                have hc := (whileDo_again.mp hb).1
                simp only [stillDropping, hI, Bool.and_false, Bool.false_eq_true] at hc) rfl
              rw [hoff] at hdrop
              cases hdrop
            simp only [Bool.false_eq_true, if_false, dropLoop_of_steady hidle ht hr]
        | true =>
            cases hdrop : q₁.dropping with
            | true =>
                simp only [if_true, dropLoop_of_steady (h.dropsOn res q₁ hd hok hdrop) ht hr]
            | false =>
                have hsame : r = now := by
                  have := h.begins res q₁ hd hok hdrop
                  omega
                rw [hsame]
  simp only [dequeue, htrace]

/-! ## A reading at the time itself -/

theorem headSteady_self (now : Nat) (q : CODELPacketQueue W) : q.HeadSteady now now := by
  intro p base sizeBytes _ _ _ _
  exact ⟨steady_self now _, fun _ => ⟨fun _ => rfl, steady_self now _⟩⟩

/-- A `dequeue` call that is made when the opportunity is due. -/
theorem dequeueSteady_self (now : Nat) (q : CODELPacketQueue W) : q.DequeueSteady now now where
  head := headSteady_self now q
  dropsOn _ _ _ _ _ s _ _ := ⟨steady_self now _, fun _ => headSteady_self now s.1⟩
  begins _ _ _ _ _ := rfl

end CODELPacketQueue

end Mahimahi
