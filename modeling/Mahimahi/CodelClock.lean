import Mathlib.Data.Nat.Sqrt
import Mahimahi.Codel

/-!
# The clock arithmetic of CoDel

CoDel computes with times and counts that are unsigned: how long a packet
has been queued, how long ago the next drop was due, how many drops there
were since it last began to drop. None of these differences is checked.
`dequeueOps` lists the operations that a `dequeue` carries out, in order,
and `clock_never_wraps` says that in a run none of them goes wrong.

That the next drop is due when dropping is taken up again follows from how
`first_above_time_` stands to it (`Paced`): outside of the dropping state it
is unset or not before `drop_next_`, because it was set an interval ahead of
a clock reading that the control law had counted from or before; and in the
dropping state it is unset or has passed.
-/

namespace Mahimahi

/-- An operation on times or counts that could go wrong. -/
inductive ClockOp where
  /-- `now - r.p.arrival_time` -/
  | sojourn (now arrivalTime : Nat)
  /-- `count_ - lastcount_` -/
  | delta (count lastcount : Nat)
  /-- `now - drop_next_` -/
  | sinceDropNext (now dropNext : Nat)
  /-- `control_law( t, count )` -/
  | controlLaw (t count : Nat)
  deriving DecidableEq, Repr

/-- No difference wraps, and nothing is divided by the root of 0. -/
def ClockOp.Sound : ClockOp → Prop
  | .sojourn now arrivalTime => arrivalTime ≤ now
  | .delta count lastcount => lastcount ≤ count
  | .sinceDropNext now dropNext => dropNext ≤ now
  | .controlLaw _ count => count ≠ 0

namespace CODELPacketQueue

variable {W : Arith}

/-! ## The operations of a call -/

/-- `dodequeue` computes the sojourn time when a packet is left behind the first. -/
def dodequeueOps (now : Nat) (q : CODELPacketQueue W) : List ClockOp :=
  match q.internalQueue with
  | p :: _ :: _ => [.sojourn now p.arrivalTime]
  | _ => []

def dropTurnOps (now : Nat) (q : CODELPacketQueue W) : List ClockOp :=
  q.dodequeueOps now ++
    match q.dodequeue now with
    | .ok (r, q) => if r.okToDrop then [.controlLaw q.dropNext (u32 (q.count + 1))] else []
    | .error _ => []

/-- The body of the loop in `dequeue`. -/
def dropBody (now : Nat) : CODELPacketQueue W × List DodequeueResult →
    Except Fault ((CODELPacketQueue W × List DodequeueResult) ⊕
      (CODELPacketQueue W × List DodequeueResult)) :=
  whileDo (stillDropping now) (dropTurn now)

def dropLoopOps (now : Nat) (q : CODELPacketQueue W) : List ClockOp :=
  (visited (dropBody now) (q.internalQueue.length + 1) (q, [])).flatMap fun t =>
    if stillDropping now t then t.1.dropTurnOps now else []

/-- The re-entry test and the control law after it. -/
def enterDroppingOps (now : Nat) (q : CODELPacketQueue W) : List ClockOp :=
  [.delta q.count q.lastcount, .sinceDropNext now q.dropNext,
    .controlLaw now (q.enterDropping now).count]

/-- The operations of a `dequeue`, in order, up to the first failure. -/
def dequeueOps (now : Nat) (q : CODELPacketQueue W) : List ClockOp :=
  q.dodequeueOps now ++
    match q.dodequeue now with
    | .error _ => []
    | .ok (r, q) =>
        if q.dropping then
          (if r.okToDrop then q else { q with dropping := false }).dropLoopOps now
        else if r.okToDrop then
          q.dodequeueOps now ++
            match q.dodequeue now with
            | .error _ => []
            | .ok (_, q) => q.enterDroppingOps now
        else []

/-- How many packets a `dequeue` drops: its inner `dodequeue` calls. -/
def dequeueDrops (now : Nat) (q : CODELPacketQueue W) : Nat :=
  match q.dodequeue now with
  | .error _ => 0
  | .ok (r, q) =>
      if q.dropping then
        let q := if r.okToDrop then q else { q with dropping := false }
        (turns (dropBody now) (q.internalQueue.length + 1) (q, [])).length
      else if r.okToDrop then 1 else 0

/-- The operations of a run of calls. -/
def runOps : List QueueCall → CODELPacketQueue W → List ClockOp
  | [], _ => []
  | .enqueue _ p :: calls, q =>
      match q.enqueue p with
      | .ok q => runOps calls q
      | .error _ => []
  | .dequeue env :: calls, q =>
      q.dequeueOps env.now ++
        match q.dequeue env.now with
        | .ok (_, q) => runOps calls q
        | .error _ => []

/-- How many packets a run of calls drops. -/
def runDrops : List QueueCall → CODELPacketQueue W → Nat
  | [], _ => 0
  | .enqueue _ p :: calls, q =>
      match q.enqueue p with
      | .ok q => runDrops calls q
      | .error _ => 0
  | .dequeue env :: calls, q =>
      q.dequeueDrops env.now +
        match q.dequeue env.now with
        | .ok (_, q) => runDrops calls q
        | .error _ => 0

/-! ## What a run is given -/

/-- The clock readings do not go back from `prev` on, and packets arrive no
later than the reading at which they are enqueued. -/
def Timely : Nat → List QueueCall → Prop
  | _, [] => True
  | prev, .enqueue env p :: calls => prev ≤ env.now ∧ p.arrivalTime ≤ env.now ∧ Timely env.now calls
  | prev, .dequeue env :: calls => prev ≤ env.now ∧ Timely env.now calls

instance decidableTimely : ∀ prev calls, Decidable (Timely prev calls)
  | _, [] => inferInstanceAs (Decidable True)
  | prev, .enqueue env p :: calls =>
      have := decidableTimely env.now calls
      inferInstanceAs (Decidable (prev ≤ env.now ∧ p.arrivalTime ≤ env.now ∧ Timely env.now calls))
  | prev, .dequeue env :: calls =>
      have := decidableTimely env.now calls
      inferInstanceAs (Decidable (prev ≤ env.now ∧ Timely env.now calls))

/-- The clock readings of the `dequeue` calls. -/
def dequeueReadings : List QueueCall → List Nat
  | [] => []
  | .enqueue _ _ :: calls => dequeueReadings calls
  | .dequeue env :: calls => env.now :: dequeueReadings calls

/-- What `interval_ / sqrt( count )` is good for: at the reading `now` the
control law gives a time between `now` and `now + interval_`, all of them
`uint64_t`s. -/
def LawHolds (interval : Nat) (controlStep : Nat → Nat) (now : Nat) : Prop :=
  ∀ c, 1 ≤ c → c < 2 ^ 32 →
    now ≤ u64 (now + controlStep c) ∧ u64 (now + controlStep c) ≤ u64 (now + interval)

theorem LawHolds.interval_lt {interval now : Nat} {controlStep : Nat → Nat}
    (h : LawHolds interval controlStep now) (hinterval : interval < 2 ^ 32) :
    now + interval < 2 ^ 64 := by
  obtain ⟨hlow, hhigh⟩ := h 1 (by omega) (by omega)
  simp only [u64] at hlow hhigh
  omega

theorem LawHolds.le_add {interval now t c : Nat} {controlStep : Nat → Nat}
    (h : LawHolds interval controlStep now) (hinterval : interval < 2 ^ 32) (hc : 1 ≤ c)
    (hc' : c < 2 ^ 32) (ht : t ≤ now) : u64 (t + controlStep c) ≤ t + interval := by
  have hlt := h.interval_lt hinterval
  obtain ⟨hlow, hhigh⟩ := h c hc hc'
  simp only [u64] at hlow hhigh ⊢
  omega

/-- The law that the source computes, in exact arithmetic. -/
theorem lawHolds_sqrt {interval now : Nat} (h : now + interval < 2 ^ 64) :
    LawHolds interval (fun c => Nat.sqrt (interval ^ 2 / c)) now := by
  intro c _ _
  show now ≤ u64 (now + Nat.sqrt (interval ^ 2 / c)) ∧ _
  have hle : Nat.sqrt (interval ^ 2 / c) ≤ interval := by
    have := Nat.sqrt_le_sqrt (Nat.div_le_self (interval ^ 2) c)
    rwa [Nat.pow_two, Nat.sqrt_eq, ← Nat.pow_two] at this
  rw [u64_of_lt (by omega), u64_of_lt h]
  omega

/-! ## One dodequeue call -/

/-- What a `dodequeue` that returns does: it takes the front off, and it leaves
everything alone but `first_above_time_`, which it clears, sets, or compares
with the clock. -/
theorem dodequeue_cases {now : Nat} {q q' : CODELPacketQueue W} {r : DodequeueResult}
    (h : q.dodequeue now = .ok (r, q')) :
    ∃ base firstAboveTime, q' = { q with base := base, firstAboveTime := firstAboveTime } ∧
      q.internalQueue = r.p :: base.internalQueue ∧
      ((r.okToDrop = false ∧ firstAboveTime = 0) ∨
       (r.okToDrop = false ∧ q.firstAboveTime = 0 ∧ firstAboveTime = u64 (now + q.interval)) ∨
       (r.okToDrop = decide (q.firstAboveTime ≤ now) ∧ q.firstAboveTime ≠ 0 ∧
         firstAboveTime = q.firstAboveTime)) := by
  obtain ⟨⟨p, base⟩, hd, h⟩ := bind_eq_ok.mp h
  have hfront : q.internalQueue = p :: base.internalQueue :=
    (DroppingPacketQueue.dequeue_eq_ok hd).1
  cases hempty : base.empty with
  | true =>
    simp only [hempty, if_true] at h
    cases h
    exact ⟨base, 0, rfl, hfront, .inl ⟨rfl, rfl⟩⟩
  | false =>
    simp only [hempty, Bool.false_eq_true, if_false] at h
    obtain ⟨sizeBytes, -, h⟩ := bind_eq_ok.mp h
    split at h
    · cases h
      exact ⟨base, 0, rfl, hfront, .inl ⟨rfl, rfl⟩⟩
    · split at h
      · next hzero =>
          cases h
          exact ⟨base, _, rfl, hfront, .inr (.inl ⟨rfl, hzero, rfl⟩)⟩
      · next hset =>
          cases h
          exact ⟨base, _, rfl, hfront, .inr (.inr ⟨rfl, hset, rfl⟩)⟩

/-- How the clock stands to the state variables at the reading `now`, after
`drops` packets have been dropped. -/
structure Paced (now drops : Nat) (q : CODELPacketQueue W) : Prop where
  arrivals : ∀ p ∈ q.internalQueue, p.arrivalTime ≤ now
  lastcount_le : q.lastcount ≤ q.count
  count_le : q.count ≤ drops
  dropNext_le : q.dropNext ≤ now + q.interval
  resting : q.dropping = false → q.firstAboveTime ≠ 0 → q.dropNext ≤ q.firstAboveTime
  running : q.dropping = true → q.firstAboveTime ≠ 0 → q.firstAboveTime ≤ now

theorem Paced.mono {now now' drops drops' : Nat} {q : CODELPacketQueue W} (h : Paced now drops q)
    (hnow : now ≤ now') (hdrops : drops ≤ drops') : Paced now' drops' q where
  arrivals p hp := Nat.le_trans (h.arrivals p hp) hnow
  lastcount_le := h.lastcount_le
  count_le := Nat.le_trans h.count_le hdrops
  dropNext_le := Nat.le_trans h.dropNext_le (by omega)
  resting := h.resting
  running hdrop hset := Nat.le_trans (h.running hdrop hset) hnow

section

variable {now drops : Nat} {q q' : CODELPacketQueue W} {r : DodequeueResult}

theorem Paced.dodequeueOps (h : Paced now drops q) : ∀ op ∈ q.dodequeueOps now, op.Sound := by
  intro op hop
  unfold CODELPacketQueue.dodequeueOps at hop
  split at hop
  · next p p' ps hq =>
      obtain rfl := List.mem_singleton.mp hop
      exact h.arrivals p (by rw [hq]; exact List.mem_cons_self ..)
  · cases hop

theorem Paced.dodequeue_keep (h : Paced now drops q) (hlt : now + q.interval < 2 ^ 64)
    (hd : q.dodequeue now = .ok (r, q')) (hok : r.okToDrop = false) :
    Paced now drops { q' with dropping := false } := by
  obtain ⟨base, firstAboveTime, rfl, hfront, hcases⟩ := dodequeue_cases hd
  refine ⟨fun p hp => h.arrivals p ?_, h.lastcount_le, h.count_le, h.dropNext_le, fun _ hset => ?_,
    fun hdrop => by cases hdrop⟩
  · rw [hfront]
    exact List.mem_cons_of_mem _ hp
  · show q.dropNext ≤ firstAboveTime
    rcases hcases with ⟨-, hf⟩ | ⟨-, -, rfl⟩ | ⟨hcmp, hqset, rfl⟩
    · exact absurd hf hset
    · rw [u64_of_lt hlt]
      exact h.dropNext_le
    · -- the time has not come, so the queue was not dropping
      have hlate : ¬ q.firstAboveTime ≤ now := by
        rw [hok] at hcmp
        exact of_decide_eq_false hcmp.symm
      cases hdrop : q.dropping with
      | false => exact h.resting hdrop hqset
      | true => exact absurd (h.running hdrop hqset) hlate

theorem Paced.dodequeue_drop (h : Paced now drops q) (hd : q.dodequeue now = .ok (r, q'))
    (hok : r.okToDrop = true) :
    Paced now drops q' ∧ q'.firstAboveTime ≠ 0 ∧ q'.firstAboveTime ≤ now := by
  obtain ⟨base, firstAboveTime, rfl, hfront, hcases⟩ := dodequeue_cases hd
  rcases hcases with ⟨hno, -⟩ | ⟨hno, -, -⟩ | ⟨hcmp, hset, rfl⟩
  · rw [hok] at hno
    cases hno
  · rw [hok] at hno
    cases hno
  · have hpast : q.firstAboveTime ≤ now := by
      rw [hok] at hcmp
      exact of_decide_eq_true hcmp.symm
    refine ⟨⟨fun p hp => h.arrivals p ?_, h.lastcount_le, h.count_le, h.dropNext_le, h.resting,
      h.running⟩, hset, hpast⟩
    rw [hfront]
    exact List.mem_cons_of_mem _ hp

/-! ## The loop, and the way into it -/

/-- The control law is reached with a count that has not wrapped, since the
turn drops a packet. -/
theorem Paced.dropTurnOps (h : Paced now drops q) (rs : List DodequeueResult)
    (hdrops : ∀ t', CODELPacketQueue.dropTurn now (q, rs) = .ok t' → drops + 1 < 2 ^ 32) :
    ∀ op ∈ q.dropTurnOps now, op.Sound := by
  intro op hop
  rw [CODELPacketQueue.dropTurnOps, List.mem_append] at hop
  rcases hop with hop | hop
  · exact h.dodequeueOps op hop
  cases hd : q.dodequeue now with
  | error e => rw [hd] at hop; cases hop
  | ok rq =>
      obtain ⟨r, q₁⟩ := rq
      rw [hd] at hop
      cases hok : r.okToDrop with
      | false => simp [hok] at hop
      | true =>
          have hlt := hdrops _ (by
            simp only [CODELPacketQueue.dropTurn, hd, ok_bind, hok, if_true]
            rfl)
          have hcount : q₁.count ≤ drops := (h.dodequeue_drop hd hok).1.count_le
          obtain rfl : op = .controlLaw q₁.dropNext (u32 (q₁.count + 1)) := by
            simpa [hok] using hop
          show u32 (q₁.count + 1) ≠ 0
          rw [u32_of_lt (by omega)]
          omega

theorem Paced.dropTurn {rs : List DodequeueResult}
    {t' : CODELPacketQueue W × List DodequeueResult} (h : Paced now drops q)
    (hlaw : LawHolds q.interval q.controlStep now) (hinterval : q.interval < 2 ^ 32)
    (hdrops : drops + 1 < 2 ^ 32) (htest : stillDropping now (q, rs) = true)
    (hturn : CODELPacketQueue.dropTurn now (q, rs) = .ok t') :
    Paced now (drops + 1) t'.1 ∧ t'.1.interval = q.interval ∧ t'.1.controlStep = q.controlStep := by
  obtain ⟨hdue, hdropping⟩ : q.dropNext ≤ now ∧ q.dropping = true := by
    simpa [stillDropping] using htest
  obtain ⟨⟨r, q₁⟩, hd, hturn⟩ := bind_eq_ok.mp hturn
  obtain ⟨base, firstAboveTime, rfl, -, -⟩ := dodequeue_cases hd
  have hcount_le := h.count_le
  have hlast_le := h.lastcount_le
  have hcount : u32 (q.count + 1) = q.count + 1 := u32_of_lt (by omega)
  cases hok : r.okToDrop with
  | true =>
      simp only [hok, if_true, pure_eq_ok, Except.ok.injEq] at hturn
      subst hturn
      obtain ⟨h₁, -, -⟩ := h.dodequeue_drop hd hok
      refine ⟨⟨h₁.arrivals, ?_, ?_, ?_, fun hrest => ?_, h₁.running⟩, rfl, rfl⟩
      · show q.lastcount ≤ u32 (q.count + 1)
        omega
      · show u32 (q.count + 1) ≤ drops + 1
        omega
      · show u64 (q.dropNext + q.controlStep (u32 (q.count + 1))) ≤ now + q.interval
        have hle := hlaw.le_add hinterval (c := u32 (q.count + 1)) (by omega) (by omega) hdue
        omega
      · have : q.dropping = false := hrest
        rw [hdropping] at this
        cases this
  | false =>
      simp only [hok, Bool.false_eq_true, if_false, pure_eq_ok, Except.ok.injEq] at hturn
      subst hturn
      have h₁ := h.dodequeue_keep (hlaw.interval_lt hinterval) hd hok
      refine ⟨⟨h₁.arrivals, ?_, ?_, h₁.dropNext_le, h₁.resting, h₁.running⟩, rfl, rfl⟩
      · show q.lastcount ≤ u32 (q.count + 1)
        omega
      · show u32 (q.count + 1) ≤ drops + 1
        omega

theorem Paced.dropLoop {now : Nat} :
    ∀ {n drops : Nat} {q : CODELPacketQueue W} {rs : List DodequeueResult}, Paced now drops q →
      LawHolds q.interval q.controlStep now → q.interval < 2 ^ 32 →
      drops + (turns (dropBody now) n (q, rs)).length < 2 ^ 32 →
      (∀ t ∈ visited (dropBody now) n (q, rs), stillDropping now t = true →
        ∀ op ∈ t.1.dropTurnOps now, op.Sound) ∧
      ∀ t', loop .diverges (dropBody now) n (q, rs) = .ok t' →
        Paced now (drops + (turns (dropBody now) n (q, rs)).length) t'.1 ∧
          t'.1.interval = q.interval ∧ t'.1.controlStep = q.controlStep
  | 0, _, _, _, _, _, _, _ => ⟨fun _ ht => (by cases ht), fun _ ht' => (by cases ht')⟩
  | n + 1, drops, q, rs, h, hlaw, hinterval, hdrops => by
      cases hb : dropBody now (q, rs) with
      | error e =>
          refine ⟨fun t ht htest => ?_, fun t' ht' => by rw [loop, hb] at ht'; cases ht'⟩
          obtain rfl : t = (q, rs) := by simpa [visited, hb] using ht
          refine h.dropTurnOps rs fun t' ht' => ?_
          rw [(whileDo_error.mp hb).2] at ht'
          cases ht'
      | ok t =>
          cases t with
          | inr t =>
              obtain ⟨htest, rfl⟩ := whileDo_leave.mp hb
              refine ⟨fun t ht htest' => ?_, fun t' ht' => ?_⟩
              · obtain rfl : t = (q, rs) := by simpa [visited, hb] using ht
                rw [htest] at htest'
                cases htest'
              · rw [loop, hb] at ht'
                cases ht'
                exact ⟨by simpa [turns, hb] using h, rfl, rfl⟩
          | inl t =>
              obtain ⟨q₁, rs₁⟩ := t
              obtain ⟨htest, hturn⟩ := whileDo_again.mp hb
              simp only [turns, hb, List.length_cons] at hdrops
              obtain ⟨h₁, hint, hstep⟩ :=
                h.dropTurn hlaw hinterval (by omega) htest hturn
              change q₁.interval = q.interval at hint
              change q₁.controlStep = q.controlStep at hstep
              have hrest : drops + 1 + (turns (dropBody now) n (q₁, rs₁)).length < 2 ^ 32 := by omega
              obtain ⟨hops, hend⟩ := Paced.dropLoop h₁ (by rw [hint, hstep]; exact hlaw)
                (by rw [hint]; exact hinterval) hrest
              refine ⟨fun t ht htest' => ?_, fun t' ht' => ?_⟩
              · simp only [visited, hb, List.mem_cons] at ht
                rcases ht with rfl | ht
                · exact h.dropTurnOps rs fun _ _ => by omega
                · exact hops t ht htest'
              · rw [loop, hb] at ht'
                obtain ⟨h', hint', hstep'⟩ := hend t' ht'
                refine ⟨h'.mono (Nat.le_refl _) ?_, hint'.trans hint, hstep'.trans hstep⟩
                simp only [turns, hb, List.length_cons]
                omega

/-- The re-entry test is made with `drop_next_` in the past, because
`first_above_time_` is. -/
theorem Paced.enterDroppingOps (h : Paced now drops q) (hdue : q.dropNext ≤ now) :
    ∀ op ∈ q.enterDroppingOps now, op.Sound := by
  intro op hop
  simp only [CODELPacketQueue.enterDroppingOps, List.mem_cons, List.not_mem_nil, or_false] at hop
  rcases hop with rfl | rfl | rfl
  · exact h.lastcount_le
  · exact hdue
  · show (if 1 < sub32 q.count q.lastcount ∧ sub64 now q.dropNext < u32 (16 * q.interval)
      then sub32 q.count q.lastcount else 1) ≠ 0
    split <;> omega

theorem Paced.enterDropping (h : Paced now drops q) (hlaw : LawHolds q.interval q.controlStep now)
    (hinterval : q.interval < 2 ^ 32) (hdrops : drops + 1 < 2 ^ 32)
    (hpast : q.firstAboveTime ≠ 0 → q.firstAboveTime ≤ now) :
    Paced now (drops + 1) (q.enterDropping now) := by
  have hcount : (q.enterDropping now).count ≤ drops + 1 ∧ (q.enterDropping now).count ≠ 0 := by
    have hcount_le := h.count_le
    have hdelta : sub32 q.count q.lastcount = q.count - q.lastcount := sub32_of_le h.lastcount_le
    unfold CODELPacketQueue.enterDropping
    simp only [hdelta]
    split <;> omega
  have hnext : (q.enterDropping now).dropNext ≤ now + q.interval :=
    hlaw.le_add hinterval (c := (q.enterDropping now).count) (by omega) (by omega) (Nat.le_refl now)
  exact ⟨h.arrivals, Nat.le_refl _, hcount.1, hnext, fun hrest => (by cases hrest), fun _ => hpast⟩

end

/-! ## One dequeue call -/

section

variable {now drops : Nat} {q q' : CODELPacketQueue W} {r : DodequeueResult}

theorem Paced.dodequeue (h : Paced now drops q) (hlt : now + q.interval < 2 ^ 64)
    (hd : q.dodequeue now = .ok (r, q')) :
    Paced now drops (if r.okToDrop then q' else { q' with dropping := false }) := by
  cases hok : r.okToDrop with
  | true => exact (h.dodequeue_drop hd hok).1
  | false => exact h.dodequeue_keep hlt hd hok

/-- The `dodequeue` on the way into the dropping state, after one whose packet
may be dropped: it cannot set `first_above_time_` anew. -/
theorem Paced.dodequeue_again (h : Paced now drops q) (hrest : q.dropping = false)
    (hset : q.firstAboveTime ≠ 0) (hpast : q.firstAboveTime ≤ now)
    (hd : q.dodequeue now = .ok (r, q')) :
    Paced now drops q' ∧ q'.dropNext ≤ now ∧ (q'.firstAboveTime ≠ 0 → q'.firstAboveTime ≤ now) := by
  obtain ⟨base, firstAboveTime, rfl, hfront, hcases⟩ := dodequeue_cases hd
  have hsame : firstAboveTime ≠ 0 → firstAboveTime = q.firstAboveTime := by
    intro hne
    rcases hcases with ⟨-, hf⟩ | ⟨-, hf, -⟩ | ⟨-, -, hf⟩
    · exact absurd hf hne
    · exact absurd hf hset
    · exact hf
  have hdue : q.dropNext ≤ now := Nat.le_trans (h.resting hrest hset) hpast
  have hpast' : firstAboveTime ≠ 0 → firstAboveTime ≤ now := by
    intro hne
    rw [hsame hne]
    exact hpast
  refine ⟨⟨fun p hp => h.arrivals p ?_, h.lastcount_le, h.count_le, h.dropNext_le, fun _ hne => ?_,
    fun _ => hpast'⟩, hdue, hpast'⟩
  · rw [hfront]
    exact List.mem_cons_of_mem _ hp
  · show q.dropNext ≤ firstAboveTime
    rw [hsame hne]
    exact h.resting hrest hset

/-- What is to be shown of a `dequeue`: its operations are sound, and it keeps
the invariant. -/
def Preserves (now drops : Nat) (q : CODELPacketQueue W) : Prop :=
  (∀ op ∈ q.dequeueOps now, op.Sound) ∧
    ∀ p q', q.dequeue now = .ok (p, q') → Paced now (drops + q.dequeueDrops now) q' ∧
      q'.interval = q.interval ∧ q'.controlStep = q.controlStep

theorem Paced.preserves_dropping (h : Paced now drops q)
    (hlaw : LawHolds q.interval q.controlStep now) (hinterval : q.interval < 2 ^ 32)
    (hdrops : drops + q.dequeueDrops now < 2 ^ 32) (hd : q.dodequeue now = .ok (r, q'))
    (hdropping : q'.dropping = true) : Preserves now drops q := by
  have hfirst := h.dodequeue (hlaw.interval_lt hinterval) hd
  unfold Preserves
  simp only [CODELPacketQueue.dequeueDrops, hd, hdropping, if_true] at hdrops ⊢
  -- the queue the loop starts from
  generalize hq₂ : (if r.okToDrop then q' else { q' with dropping := false }) = q₂
    at hfirst hdrops ⊢
  have hsame : q₂.interval = q.interval ∧ q₂.controlStep = q.controlStep := by
    obtain ⟨base, firstAboveTime, rfl, -, -⟩ := dodequeue_cases hd
    rw [← hq₂]
    split <;> exact ⟨rfl, rfl⟩
  obtain ⟨hops, hend⟩ := Paced.dropLoop hfirst (by rw [hsame.1, hsame.2]; exact hlaw)
    (by rw [hsame.1]; exact hinterval) hdrops
  refine ⟨fun op hop => ?_, fun p q₃ hq₃ => ?_⟩
  · simp only [CODELPacketQueue.dequeueOps, hd, hdropping, if_true, hq₂,
      List.mem_append, dropLoopOps, List.mem_flatMap] at hop
    rcases hop with hop | ⟨t, ht, hop⟩
    · exact h.dodequeueOps op hop
    · cases htest : stillDropping now t with
      | false => simp [htest] at hop
      | true => exact hops t ht htest op (by simpa [htest] using hop)
  · simp only [CODELPacketQueue.dequeue, CODELPacketQueue.dequeueTrace, hd, ok_bind,
      hdropping, if_true, hq₂, bind_eq_ok, pure_eq_ok, Except.ok.injEq] at hq₃
    obtain ⟨_, ⟨⟨q₄, rs⟩, hloop, hret⟩, hq₃⟩ := hq₃
    cases hret
    cases hq₃
    obtain ⟨h', hint, hstep⟩ := hend _ hloop
    exact ⟨h', hint.trans hsame.1, hstep.trans hsame.2⟩

theorem Paced.preserves_resting (h : Paced now drops q)
    (hlaw : LawHolds q.interval q.controlStep now) (hinterval : q.interval < 2 ^ 32)
    (hd : q.dodequeue now = .ok (r, q')) (hrest : q'.dropping = false)
    (hok : r.okToDrop = false) : Preserves now drops q := by
  have hq' : Paced now drops q' := by
    have hkeep := h.dodequeue_keep (hlaw.interval_lt hinterval) hd hok
    rwa [← hrest] at hkeep
  refine ⟨fun op hop => h.dodequeueOps op ?_, fun p q₁ hq₁ => ?_⟩
  · simpa [CODELPacketQueue.dequeueOps, hd, hrest, hok] using hop
  · obtain ⟨-, rfl⟩ : r.p = p ∧ q' = q₁ := by
      simpa [CODELPacketQueue.dequeue, CODELPacketQueue.dequeueTrace, hd, hrest, hok] using hq₁
    obtain ⟨base, firstAboveTime, rfl, -, -⟩ := dodequeue_cases hd
    exact ⟨hq'.mono (Nat.le_refl _) (Nat.le_add_right ..), rfl, rfl⟩

theorem Paced.preserves_entering (h : Paced now drops q)
    (hlaw : LawHolds q.interval q.controlStep now) (hinterval : q.interval < 2 ^ 32)
    (hdrops : drops + q.dequeueDrops now < 2 ^ 32) (hd : q.dodequeue now = .ok (r, q'))
    (hrest : q'.dropping = false) (hok : r.okToDrop = true) : Preserves now drops q := by
  obtain ⟨hq', hset, hpast⟩ := h.dodequeue_drop hd hok
  unfold Preserves
  simp only [CODELPacketQueue.dequeueDrops, hd, hrest, hok, Bool.false_eq_true, if_false,
    if_true] at hdrops ⊢
  have hagain : ∀ (r₂ : DodequeueResult) (q₂ : CODELPacketQueue W),
      q'.dodequeue now = .ok (r₂, q₂) →
        (∀ op ∈ q₂.enterDroppingOps now, op.Sound) ∧ Paced now (drops + 1) (q₂.enterDropping now) ∧
          q₂.interval = q.interval ∧ q₂.controlStep = q.controlStep := by
    intro r₂ q₂ hd₂
    obtain ⟨hq₂, hdue, hpast₂⟩ := hq'.dodequeue_again hrest hset hpast hd₂
    obtain ⟨base, firstAboveTime, rfl, -, -⟩ := dodequeue_cases hd
    obtain ⟨base₂, firstAboveTime₂, rfl, -, -⟩ := dodequeue_cases hd₂
    exact ⟨hq₂.enterDroppingOps hdue, hq₂.enterDropping hlaw hinterval hdrops hpast₂, rfl, rfl⟩
  refine ⟨fun op hop => ?_, fun p q₃ hq₃ => ?_⟩
  · simp only [CODELPacketQueue.dequeueOps, hd, hrest, hok, Bool.false_eq_true, if_false,
      if_true, List.mem_append] at hop
    rcases hop with hop | hop | hop
    · exact h.dodequeueOps op hop
    · exact hq'.dodequeueOps op hop
    · cases hd₂ : q'.dodequeue now with
      | error e => rw [hd₂] at hop; cases hop
      | ok rq =>
          rw [hd₂] at hop
          exact (hagain rq.1 rq.2 hd₂).1 op hop
  · simp only [CODELPacketQueue.dequeue, CODELPacketQueue.dequeueTrace, hd, ok_bind, hrest, hok,
      Bool.false_eq_true, if_false, if_true, bind_eq_ok, pure_eq_ok, Except.ok.injEq] at hq₃
    obtain ⟨_, ⟨⟨r₂, q₂⟩, hd₂, hret⟩, hq₃⟩ := hq₃
    cases hret
    cases hq₃
    exact (hagain r₂ q₂ hd₂).2

theorem Paced.preserves (h : Paced now drops q) (hlaw : LawHolds q.interval q.controlStep now)
    (hinterval : q.interval < 2 ^ 32) (hdrops : drops + q.dequeueDrops now < 2 ^ 32) :
    Preserves now drops q := by
  cases hd : q.dodequeue now with
  | error e =>
      refine ⟨fun op hop => h.dodequeueOps op ?_, fun p q' hq' => ?_⟩
      · simpa [CODELPacketQueue.dequeueOps, hd] using hop
      · simp [CODELPacketQueue.dequeue, CODELPacketQueue.dequeueTrace, hd] at hq'
  | ok rq =>
      obtain ⟨r, q'⟩ := rq
      cases hdropping : q'.dropping with
      | true => exact h.preserves_dropping hlaw hinterval hdrops hd hdropping
      | false =>
          cases hok : r.okToDrop with
          | false => exact h.preserves_resting hlaw hinterval hd hdropping hok
          | true => exact h.preserves_entering hlaw hinterval hdrops hd hdropping hok

theorem Paced.enqueue {p : QueuedPacket} (h : Paced now drops q) (hp : p.arrivalTime ≤ now)
    (he : q.enqueue p = .ok q') :
    Paced now drops q' ∧ q'.interval = q.interval ∧ q'.controlStep = q.controlStep := by
  simp only [CODELPacketQueue.enqueue, bind_eq_ok, pure_eq_ok, Except.ok.injEq] at he
  obtain ⟨b, -, u, -, rfl⟩ := he
  refine ⟨⟨fun p' hp' => ?_, h.lastcount_le, h.count_le, h.dropNext_le, h.resting, h.running⟩,
    rfl, rfl⟩
  change p' ∈ (if b = true then q.base.accept p else q.base).internalQueue at hp'
  split at hp'
  · rw [DroppingPacketQueue.accept_internalQueue, List.mem_append, List.mem_singleton] at hp'
    rcases hp' with hp' | rfl
    · exact h.arrivals p' hp'
    · exact hp
  · exact h.arrivals p' hp'

end

/-! ## Whole runs -/

/-- The operations of a run, by induction on the calls: the clock goes
forward and the drops add up. -/
theorem Paced.runOps : ∀ {calls : List QueueCall} {now drops : Nat} {q : CODELPacketQueue W},
    Paced now drops q → q.interval < 2 ^ 32 → Timely now calls →
    (∀ now' ∈ dequeueReadings calls, LawHolds q.interval q.controlStep now') →
    drops + runDrops calls q < 2 ^ 32 → ∀ op ∈ runOps calls q, op.Sound
  | [], _, _, _, _, _, _, _, _ => fun op hop => by cases hop
  | .enqueue env p :: calls, now, drops, q, h, hinterval, htime, hlaw, hdrops => by
      intro op hop
      obtain ⟨hnow, hp, htime⟩ := htime
      cases he : q.enqueue p with
      | error e => simp [CODELPacketQueue.runOps, he] at hop
      | ok q' =>
          simp only [CODELPacketQueue.runOps, runDrops, he] at hop hdrops
          obtain ⟨h', hint, hstep⟩ := (h.mono hnow (Nat.le_refl drops)).enqueue hp he
          refine Paced.runOps h' (by rw [hint]; exact hinterval) htime
            (by rw [hint, hstep]; exact hlaw) hdrops op hop
  | .dequeue env :: calls, now, drops, q, h, hinterval, htime, hlaw, hdrops => by
      intro op hop
      obtain ⟨hnow, htime⟩ := htime
      simp only [CODELPacketQueue.runOps, runDrops, List.mem_append] at hop hdrops
      obtain ⟨hops, hend⟩ := (h.mono hnow (Nat.le_refl drops)).preserves
        (hlaw env.now List.mem_cons_self) hinterval (by omega)
      rcases hop with hop | hop
      · exact hops op hop
      · cases hd : q.dequeue env.now with
        | error e => rw [hd] at hop; cases hop
        | ok pq =>
            obtain ⟨p, q'⟩ := pq
            rw [hd] at hop hdrops
            change drops + (q.dequeueDrops env.now + runDrops calls q') < 2 ^ 32 at hdrops
            obtain ⟨h', hint, hstep⟩ := hend p q' hd
            refine Paced.runOps h' (by rw [hint]; exact hinterval) htime
              (fun now' hnow' => ?_) (by omega) op hop
            rw [hint, hstep]
            exact hlaw now' (List.mem_cons_of_mem _ hnow')

/-- **The clock arithmetic of CoDel.** Whatever the constructor was given, in
a run of calls at clock readings that do not go back, of packets stamped at
or before their `enqueue`, and with fewer than `2 ^ 32` packets dropped: where
the control law holds at the readings of the `dequeue` calls, no difference
of times or counts that a `dequeue` takes wraps, and the control law is never
asked about a count of 0. -/
theorem clock_never_wraps (W : Arith) (l : Limits) (target interval : Nat)
    (controlStep : Nat → Nat) (calls : List QueueCall) (hinterval : interval < 2 ^ 32)
    (htime : Timely 0 calls)
    (hlaw : ∀ now ∈ dequeueReadings calls, LawHolds interval controlStep now)
    (hdrops : runDrops calls (initial W l target interval controlStep) < 2 ^ 32) :
    ∀ op ∈ runOps calls (initial W l target interval controlStep), op.Sound := by
  have hstart : Paced 0 0 (initial W l target interval controlStep) :=
    ⟨fun p hp => (by cases hp), Nat.le_refl _, Nat.le_refl _, Nat.zero_le _,
      fun _ hset => absurd rfl hset, fun hdrop => (by cases hdrop)⟩
  exact hstart.runOps hinterval htime hlaw (by omega)

/-- The dequeue at 200 ms enters the dropping state, so it makes the re-entry test. -/
theorem standingQueue_clock :
    let calls := standingQueue ++ [.dequeue ⟨200, 200, 0⟩]
    let q := initial .machine ⟨100, 0⟩ 5 100 (fun c => Nat.sqrt (100 ^ 2 / c))
    .sinceDropNext 200 0 ∈ runOps calls q ∧ ∀ op ∈ runOps calls q, op.Sound := by
  refine ⟨by decide +kernel, clock_never_wraps .machine ⟨100, 0⟩ 5 100 _ _ (by decide)
    (by decide +kernel) (fun now hnow => lawHolds_sqrt ?_) (by decide +kernel)⟩
  have hreadings : now ∈ [10, 200] := hnow
  have : now = 10 ∨ now = 200 := by simpa using hreadings
  omega

end CODELPacketQueue

end Mahimahi
