import Mathlib.Data.Nat.Find
import Mahimahi.LinkClock

/-!
# The schedule in closed form

A trace of `n` entries says when its opportunities are, over and over or once:
the `k`-th one at `b + (k / n) * last + s[k % n]`. The link has no such formula.
It keeps an index and a base that moves when the index comes round, and the
index is an `unsigned int`. `cursorAt_eq` is the closed form of what it does:
the same formula with the `period` of the index in the place of `n`.

`ExactSchedule` is everything that the formula is wanted for. Where a cursor
stands not being due, it is not due later either (`not_isDue_cursorAt`), so the
opportunities that are used up to a time are an interval, and both the
emulation on unbounded times and `rationalize` stop at its end. The schedule is
exact if and only if the index can count the entries (`exactSchedule_iff`).
-/

namespace Mahimahi

namespace Trace

variable {tr : Trace}

/-! ## Where the link stands after `k` opportunities -/

/-- After this many opportunities the index is back at 0: when it comes to the
end of the trace, or of `unsigned int`. -/
def period (tr : Trace) : Nat := min tr.schedule.length (2 ^ 32)

theorem period_pos (tr : Trace) : 0 < tr.period := by
  have := tr.length_pos
  simp only [period]
  omega

theorem advance_next {c : Cursor} (hc : tr.InRange c) :
    (tr.advance c).next = (c.next + 1) % tr.period := by
  obtain ⟨hlen, h32⟩ := hc
  show u32 (c.next + 1) % tr.schedule.length = _
  rcases Nat.lt_or_ge (2 ^ 32) tr.schedule.length with hlong | hshort
  · have hperiod : tr.period = 2 ^ 32 := by
      simp only [period]
      omega
    rw [hperiod, u32, Nat.mod_eq_of_lt (Nat.lt_trans (Nat.mod_lt _ (by decide)) hlong)]
  · have hperiod : tr.period = tr.schedule.length := by
      simp only [period]
      omega
    rw [hperiod]
    by_cases hlast : c.next + 1 < 2 ^ 32
    · rw [u32_of_lt hlast]
    · -- the index of the last of `2 ^ 32` entries
      have hnext : c.next + 1 = tr.schedule.length := by omega
      have hwrap : u32 (c.next + 1) = 0 := by
        rw [show c.next + 1 = 2 ^ 32 by omega]
        rfl
      rw [hwrap, hnext, Nat.mod_self, Nat.zero_mod]

/-- A step of the code's own counting, in terms of the next index. -/
theorem advance_eq {c : Cursor} (hc : tr.InRange c) :
    tr.advance c = ⟨(c.next + 1) % tr.period,
      if (c.next + 1) % tr.period = 0 ∧ tr.repeats = true then c.base + tr.last else c.base,
      c.finished || (decide ((c.next + 1) % tr.period = 0) && !tr.repeats)⟩ := by
  rw [← advance_next hc]
  rfl

theorem period_le_succ_iff (tr : Trace) (k : Nat) :
    tr.period ≤ k ∨ (k + 1) % tr.period = 0 ↔ tr.period ≤ k + 1 := by
  constructor
  · rintro (hle | hround)
    · omega
    · exact Nat.le_of_dvd (Nat.succ_pos k) (Nat.dvd_of_mod_eq_zero hround)
  · intro hle
    rcases Nat.lt_or_ge k tr.period with hlt | hge
    · have : k + 1 = tr.period := by omega
      exact .inr (by rw [this, Nat.mod_self])
    · exact .inl hge

/-- The closed form of the code's own counting. -/
theorem cursorAt_eq (tr : Trace) (b k : Nat) :
    tr.cursorAt b k = ⟨k % tr.period, if tr.repeats then b + k / tr.period * tr.last else b,
      !tr.repeats && decide (tr.period ≤ k)⟩ := by
  have hpos := tr.period_pos
  induction k with
  | zero =>
      have hne : tr.period ≠ 0 := Nat.ne_of_gt hpos
      simp [cursorAt, hne]
  | succ k ih =>
      have hzero : (k + 1) % tr.period = 0 ↔ tr.period ∣ k + 1 := Nat.dvd_iff_mod_eq_zero.symm
      have hdiv : (k + 1) / tr.period
          = k / tr.period + if (k + 1) % tr.period = 0 then 1 else 0 := by
        rw [Nat.succ_div]
        simp only [hzero]
      rw [cursorAt_succ, advance_eq (tr.inRange_cursorAt b k), ih, hdiv]
      simp only [Nat.mod_add_mod]
      cases tr.repeats with
      | true =>
          by_cases hround : (k + 1) % tr.period = 0
          · simp [hround, Nat.add_mul, Nat.add_assoc]
          · simp [hround]
      | false =>
          have hend : (decide (tr.period ≤ k) || decide ((k + 1) % tr.period = 0))
              = decide (tr.period ≤ k + 1) := by
            rw [← Bool.decide_or, decide_eq_decide]
            exact tr.period_le_succ_iff k
          simp [hend]

/-! ## What a schedule is for -/

/-- The time of the `k`-th opportunity of a trace that is repeated, on paper. -/
def scheduled (tr : Trace) (b k : Nat) : Nat :=
  b + k / tr.schedule.length * tr.last + tr.schedule.getD (k % tr.schedule.length) 0

/-- `next_delivery_time() <= now`, with times that have no bound; after the end
of the trace there is no next time. -/
def isDue (tr : Trace) (now : Nat) (c : Cursor) : Bool :=
  !c.finished && decide (tr.time c ≤ now)

/-- `rationalize( now )` on unbounded times, as far as the schedule goes. -/
def Emulates (tr : Trace) (now : Nat) (c c' : Cursor) : Prop :=
  Exits (whileDo (tr.isDue now) fun c => (.ok (tr.advance c) : Except Fault Cursor)) c (.ok c')

/-- Of the opportunities from the `k`-th on, those that are due by `now` are the
ones before the `m`-th. -/
def UsesUpTo (tr : Trace) (b now k m : Nat) : Prop :=
  k ≤ m ∧ ∀ i, k ≤ i → (i < m ↔ (tr.cursorAt b i).finished = false ∧
    tr.time (tr.cursorAt b i) ≤ now)

/-- The link delivers by the schedule, whatever the base timestamp is and
however many opportunities have been used. -/
structure ExactSchedule (tr : Trace) : Prop where
  /-- With repeat: the times are those on paper, -/
  repeating : tr.repeats = true → ∀ b k, (tr.cursorAt b k).finished = false ∧
    tr.time (tr.cursorAt b k) = tr.scheduled b k
  /-- they never go back, -/
  ordered : tr.repeats = true → ∀ b j k, j ≤ k →
    tr.time (tr.cursorAt b j) ≤ tr.time (tr.cursorAt b k)
  /-- and there is no last one. -/
  unbounded : tr.repeats = true → ∀ b now, ∃ k, now < tr.time (tr.cursorAt b k)
  /-- Without: each entry has its opportunity, and the link has finished when
  the last one has been used. -/
  once : tr.repeats = false → ∀ b k, ((tr.cursorAt b k).finished = true ↔ tr.schedule.length ≤ k) ∧
    (k < tr.schedule.length → tr.time (tr.cursorAt b k) = b + tr.schedule.getD k 0)
  /-- Emulating the link comes to an end, and uses what is due and nothing else. -/
  emulated : ∀ b k now, ∃ m, tr.Emulates now (tr.cursorAt b k) (tr.cursorAt b m) ∧
    tr.UsesUpTo b now k m
  /-- So does `rationalize`, while no time is beyond `uint64_t`. -/
  rationalized : ∀ (Q : Type) [AbstractPacketQueue Q] (world : Nat → Env) (q q' : LinkQueue tr Q)
    (b T k now : Nat), tr.NoWraparound b T → now ≤ T → q.cursor = tr.cursorAt b k →
    (∀ i < k, tr.time (tr.cursorAt b i) ≤ T) → q.rationalize world now = .ok q' →
    ∃ m, q'.cursor = tr.cursorAt b m ∧ tr.UsesUpTo b now k m

/-! ## The opportunities used are an interval -/

variable {b now k m : Nat}

theorem isDue_eq_true {c : Cursor} :
    tr.isDue now c = true ↔ c.finished = false ∧ tr.time c ≤ now := by
  simp [isDue]

theorem not_isDue_advance {c : Cursor} (hc : tr.InRange c) (h : tr.isDue now c = false) :
    tr.isDue now (tr.advance c) = false := by
  by_contra hdue
  obtain ⟨hfin, hle⟩ := isDue_eq_true.mp (Bool.not_eq_false _ ▸ hdue)
  have hrun : c.finished = false := by
    cases hcf : c.finished with
    | false => rfl
    | true => simp [advance, hcf] at hfin
  have htime := time_le_advance hc hfin
  have : tr.isDue now c = true := isDue_eq_true.mpr ⟨hrun, Nat.le_trans htime hle⟩
  rw [h] at this
  cases this

theorem not_isDue_cursorAt (h : tr.isDue now (tr.cursorAt b m) = false) {i : Nat} (hi : m ≤ i) :
    tr.isDue now (tr.cursorAt b i) = false := by
  induction hi with
  | refl => exact h
  | @step i _ ih =>
      rw [Nat.succ_eq_add_one, cursorAt_succ]
      exact not_isDue_advance (tr.inRange_cursorAt b i) ih

theorem usesUpTo_of_isDue (hle : k ≤ m)
    (hdue : ∀ i, k ≤ i → i < m → tr.isDue now (tr.cursorAt b i) = true)
    (hend : tr.isDue now (tr.cursorAt b m) = false) : tr.UsesUpTo b now k m := by
  refine ⟨hle, fun i hi => ⟨fun hlt => isDue_eq_true.mp (hdue i hi hlt), fun h => ?_⟩⟩
  by_contra hge
  have hnot := not_isDue_cursorAt hend (Nat.le_of_not_lt hge)
  rw [isDue_eq_true.mpr h] at hnot
  cases hnot

/-- A trace comes to its end, or its times pass every bound. -/
theorem exists_not_isDue (tr : Trace) (b k now : Nat) :
    ∃ m, k ≤ m ∧ tr.isDue now (tr.cursorAt b m) = false := by
  have hpos := tr.period_pos
  refine ⟨k + tr.period * (now + 1), Nat.le_add_right .., ?_⟩
  rw [cursorAt_eq]
  cases hrep : tr.repeats with
  | false =>
      have hle : tr.period ≤ k + tr.period * (now + 1) := by
        have hmul : tr.period ≤ tr.period * (now + 1) :=
          Nat.le_mul_of_pos_right tr.period (Nat.succ_pos now)
        omega
      simp [isDue, hle]
  | true =>
      have hdiv : now + 1 ≤ (k + tr.period * (now + 1)) / tr.period := by
        rw [Nat.le_div_iff_mul_le hpos, Nat.mul_comm]
        omega
      have hlast : now + 1 ≤ (k + tr.period * (now + 1)) / tr.period * tr.last :=
        Nat.le_trans hdiv (Nat.le_mul_of_pos_right _ tr.last_pos)
      simp only [isDue, time, if_true, Bool.and_eq_false_iff, decide_eq_false_iff_not]
      omega

/-- The emulation goes on to the first opportunity that is not due. -/
theorem emulates_of_usesUpTo {j : Nat} :
    ∀ {m k : Nat}, m = k + j → (∀ i, k ≤ i → i < m → tr.isDue now (tr.cursorAt b i) = true) →
    tr.isDue now (tr.cursorAt b m) = false →
    tr.Emulates now (tr.cursorAt b k) (tr.cursorAt b m) := by
  induction j with
  | zero =>
      intro m k hm _ hend
      obtain rfl : m = k := hm
      exact .leave (whileDo_leave.mpr ⟨hend, rfl⟩)
  | succ j ih =>
      intro m k hm hdue hend
      have hturn : whileDo (tr.isDue now)
          (fun c => (.ok (tr.advance c) : Except Fault Cursor)) (tr.cursorAt b k)
            = .ok (.inl (tr.cursorAt b (k + 1))) := by
        rw [cursorAt_succ]
        exact whileDo_again.mpr ⟨hdue k (Nat.le_refl k) (by omega), rfl⟩
      exact .again hturn (ih (by omega) (fun i hi => hdue i (by omega)) hend)

theorem exists_emulates (tr : Trace) (b k now : Nat) :
    ∃ m, tr.Emulates now (tr.cursorAt b k) (tr.cursorAt b m) ∧ tr.UsesUpTo b now k m := by
  have hex : ∃ j, tr.isDue now (tr.cursorAt b (k + j)) = false := by
    obtain ⟨m, hle, hend⟩ := tr.exists_not_isDue b k now
    obtain ⟨j, rfl⟩ := Nat.exists_eq_add_of_le hle
    exact ⟨j, hend⟩
  have hend := Nat.find_spec hex
  have hdue : ∀ i, k ≤ i → i < k + Nat.find hex → tr.isDue now (tr.cursorAt b i) = true := by
    intro i hi hlt
    obtain ⟨j, rfl⟩ := Nat.exists_eq_add_of_le hi
    exact Bool.not_eq_false _ ▸ Nat.find_min hex (by omega)
  exact ⟨k + Nat.find hex, emulates_of_usesUpTo rfl hdue hend,
    usesUpTo_of_isDue (Nat.le_add_right ..) hdue hend⟩

end Trace

/-! ## The link itself -/

namespace LinkQueue

variable {tr : Trace} {Q : Type} {b T now k : Nat} {q : LinkQueue tr Q}

/-- The test of the loop in `rationalize` is the one on unbounded times. -/
theorem isDue_eq_cursor (hwrap : tr.NoWraparound b T) (h : q.OnSchedule b T) (hnow : now ≤ T) :
    isDue now q = tr.isDue now q.cursor := by
  cases hfin : q.finished with
  | true =>
      have := hwrap.clock_lt
      have hcursor : q.cursor.finished = true := hfin
      have hlate : ¬ 2 ^ 64 - 1 ≤ now := by omega
      rw [isDue, nextDeliveryTime_of_finished hfin, decide_eq_false hlate, Trace.isDue, hcursor]
      rfl
  | false =>
      have hcursor : q.cursor.finished = false := hfin
      rw [isDue, h.nextDeliveryTime_eq hwrap hfin, Trace.isDue, hcursor]
      rfl

theorem rationalize_usesUpTo [AbstractPacketQueue Q] {world : Nat → Env} {q' : LinkQueue tr Q}
    (hwrap : tr.NoWraparound b T) (hnow : now ≤ T) (hk : q.cursor = tr.cursorAt b k)
    (hle : ∀ i < k, tr.time (tr.cursorAt b i) ≤ T) (hr : q.rationalize world now = .ok q') :
    ∃ m, q'.cursor = tr.cursorAt b m ∧ tr.UsesUpTo b now k m := by
  -- so far the link has used the opportunities from `k` to before `m`, all of them due
  refine (exits_of_loop_ok hr).invariant
    (I := fun s => ∃ m, k ≤ m ∧ s.cursor = tr.cursorAt b m ∧
      (∀ i < m, tr.time (tr.cursorAt b i) ≤ T) ∧
      ∀ i, k ≤ i → i < m → tr.isDue now (tr.cursorAt b i) = true)
    (Q := fun r => ∃ m, r.cursor = tr.cursorAt b m ∧ tr.UsesUpTo b now k m) ?_ ?_
    ⟨k, Nat.le_refl k, hk, hle, fun i hi hlt => by omega⟩ q' rfl
  · rintro s s' ⟨m, hkm, hm, hpast, hused⟩ hb
    obtain ⟨hdue, hb⟩ := whileDo_again.mp hb
    have hs : s.OnSchedule b T := ⟨m, hm, hpast⟩
    have hnext := (hs.deliver hwrap hnow (of_decide_eq_true hdue) hb).1
    rw [isDue_eq_cursor hwrap hs hnow, hm] at hdue
    refine ⟨m + 1, by omega, by rw [hnext, hm, Trace.cursorAt_succ], fun i hi => ?_,
      fun i hi hlt => ?_⟩
    · rcases Nat.lt_succ_iff_lt_or_eq.mp hi with hi | rfl
      · exact hpast i hi
      · exact Nat.le_trans (Trace.isDue_eq_true.mp hdue).2 hnow
    · rcases Nat.lt_succ_iff_lt_or_eq.mp hlt with hlt | rfl
      · exact hused i hi hlt
      · exact hdue
  · rintro s r ⟨m, hkm, hm, hpast, hused⟩ hb
    obtain ⟨hend, rfl⟩ := whileDo_leave.mp hb
    rw [isDue_eq_cursor hwrap ⟨m, hm, hpast⟩ hnow, hm] at hend
    exact ⟨m, hm, Trace.usesUpTo_of_isDue hkm hused hend⟩

end LinkQueue

/-! ## When the schedule is exact -/

namespace Trace

variable {tr : Trace}

theorem time_cursorAt_of_repeats (hrep : tr.repeats = true) (b k : Nat) :
    (tr.cursorAt b k).finished = false ∧ tr.time (tr.cursorAt b k)
      = b + k / tr.period * tr.last + tr.schedule.getD (k % tr.period) 0 := by
  rw [cursorAt_eq, hrep]
  refine ⟨rfl, ?_⟩
  simp only [time, if_true]
  omega

theorem ordered_of_repeats (hrep : tr.repeats = true) (b : Nat) {j k : Nat} (hle : j ≤ k) :
    tr.time (tr.cursorAt b j) ≤ tr.time (tr.cursorAt b k) := by
  induction hle with
  | refl => exact Nat.le_refl _
  | @step k _ ih =>
      refine Nat.le_trans ih ?_
      have hrun := (time_cursorAt_of_repeats hrep b (k + 1)).1
      rw [cursorAt_succ] at hrun
      rw [Nat.succ_eq_add_one, cursorAt_succ]
      exact time_le_advance (tr.inRange_cursorAt b k) hrun

theorem unbounded_of_repeats (hrep : tr.repeats = true) (b now : Nat) :
    ∃ k, now < tr.time (tr.cursorAt b k) := by
  obtain ⟨m, -, hend⟩ := tr.exists_not_isDue b 0 now
  refine ⟨m, Nat.lt_of_not_le fun hle => ?_⟩
  have hdue := isDue_eq_true.mpr ⟨(time_cursorAt_of_repeats hrep b m).1, hle⟩
  rw [hend] at hdue
  cases hdue

theorem exactSchedule_of_short (hshort : tr.schedule.length ≤ 2 ^ 32) : tr.ExactSchedule := by
  have hperiod : tr.period = tr.schedule.length := by
    simp only [period]
    omega
  refine ⟨fun hrep b k => ?_, fun hrep b j k => ordered_of_repeats hrep b,
    unbounded_of_repeats, fun hrep b k => ?_, tr.exists_emulates,
    fun Q _ world q q' b T k now hwrap hnow hk hle hr =>
      LinkQueue.rationalize_usesUpTo hwrap hnow hk hle hr⟩
  · have h := time_cursorAt_of_repeats hrep b k
    rw [hperiod] at h
    exact h
  · rw [cursorAt_eq, hperiod, hrep]
    refine ⟨by simp, fun hlt => ?_⟩
    simp only [time, Nat.mod_eq_of_lt hlt, Bool.false_eq_true, if_false]
    omega

/-- The index of a longer trace comes round too early. -/
theorem not_exactSchedule_of_long (hlong : 2 ^ 32 < tr.schedule.length) : ¬ tr.ExactSchedule := by
  have hperiod : tr.period = 2 ^ 32 := by
    simp only [period]
    omega
  intro h
  cases hrep : tr.repeats with
  | true =>
      -- after as many rounds of the one period as the other is long, both are
      -- at the first entry, but not in the same round
      have hpaper := (h.repeating hrep 0 (tr.schedule.length * 2 ^ 32)).2
      have hcode := (time_cursorAt_of_repeats hrep 0 (tr.schedule.length * 2 ^ 32)).2
      rw [hcode, hperiod, scheduled, Nat.mul_mod_left, Nat.mul_mod_right,
        Nat.mul_div_cancel _ (Nat.two_pow_pos 32), Nat.mul_div_cancel_left _ tr.length_pos] at hpaper
      have hlt := Nat.mul_lt_mul_of_pos_right hlong tr.last_pos
      have hlast : tr.schedule.getLast tr.nonempty = tr.last := rfl
      rw [hlast] at hlt
      omega
  | false =>
      have hfin := (h.once hrep 0 (2 ^ 32)).1
      rw [cursorAt_eq, hperiod, hrep] at hfin
      simp only [Bool.not_false, Bool.true_and, decide_eq_true_eq, Nat.le_refl, true_iff] at hfin
      omega

/-- **The delivery schedule is exact** for the traces whose entries an
`unsigned int` can number, and for no others. -/
theorem exactSchedule_iff (tr : Trace) :
    tr.ExactSchedule ↔ tr.schedule.length ≤ 2 ^ 32 :=
  ⟨fun h => Nat.le_of_not_lt fun hlong => not_exactSchedule_of_long hlong h, exactSchedule_of_short⟩

/-- `n + 1` opportunities at the same millisecond, over and over. -/
def burst (n : Nat) : Trace where
  schedule := List.replicate (n + 1) 1
  repeats := true
  nonempty := by rw [List.replicate_succ]; exact List.cons_ne_nil _ _
  sorted := List.pairwise_replicate.mpr (.inr (Nat.le_refl 1))
  last_pos := by rw [List.getLast_replicate]; exact Nat.one_pos

theorem length_burst (n : Nat) : (burst n).schedule.length = n + 1 := List.length_replicate

/-- Where the index comes round one opportunity early, the last one is late. -/
theorem burst_of_period {n : Nat} (hn : 0 < n) (hperiod : (burst n).period = n) :
    (burst n).scheduled 0 n = 1 ∧ (burst n).time ((burst n).cursorAt 0 n) = 2 := by
  have hlast : (burst n).last = 1 := List.getLast_replicate _
  have hentry : ∀ i, i < n + 1 → (burst n).schedule.getD i 0 = 1 := by
    intro i hi
    rw [List.getD_eq_getElem _ _ (by rw [length_burst]; exact hi)]
    exact List.getElem_replicate _
  constructor
  · rw [scheduled, length_burst, hlast, Nat.div_eq_of_lt (Nat.lt_succ_self n),
      Nat.mod_eq_of_lt (Nat.lt_succ_self n), hentry n (Nat.lt_succ_self n)]
  · rw [(time_cursorAt_of_repeats rfl 0 n).2, hperiod, hlast, Nat.div_self hn, Nat.mod_self,
      hentry 0 (Nat.succ_pos n)]

/-- With one entry more than `unsigned int` has numbers, the last one gets no
opportunity: the trace begins again in its place, a millisecond late. -/
theorem burst_begins_early :
    (burst (2 ^ 32)).scheduled 0 (2 ^ 32) = 1 ∧
      (burst (2 ^ 32)).time ((burst (2 ^ 32)).cursorAt 0 (2 ^ 32)) = 2 ∧
      ¬ (burst (2 ^ 32)).ExactSchedule := by
  have hlong : ∀ n, 2 ^ 32 ≤ n → 2 ^ 32 < (burst n).schedule.length := by
    intro n hn
    rw [length_burst]
    exact Nat.lt_succ_of_le hn
  have hperiod : (burst (2 ^ 32)).period = 2 ^ 32 :=
    Nat.min_eq_right (Nat.le_of_lt (hlong _ (Nat.le_refl _)))
  obtain ⟨hpaper, hcode⟩ := burst_of_period (Nat.two_pow_pos 32) hperiod
  exact ⟨hpaper, hcode, not_exactSchedule_of_long (hlong _ (Nat.le_refl _))⟩

end Trace

end Mahimahi
