import Mahimahi.CodelReading
import Mahimahi.LinkClock

/-!
# Polling a link whose discipline reads the clock

A call of the link emulates it up to the time of the call, and the discipline
reads the clock of the call for opportunities that were due before. Polls in
between emulate the same opportunities at other readings.

`EveryDequeue P` says that a condition `P` holds of every `dequeue` call in a
run: of the time of the opportunity it serves, of what it reads of the world,
and of the queue it is called on. When `P` rules out that an earlier reading
makes a difference, the polls that are added to a run make none
(`runTimed_morePolls`): up to the poll the run would have done the same
(`rationalize_reading`), and the poll only splits a loop in two. For CoDel the
condition is `DequeueSteady`.
-/

namespace Mahimahi

/-! ## Calls with their readings -/

/-- A `read_packet` call (with the contents, and what `enqueue` reads of the
world) or a `wait_time` call, at the time `now`, with what the `dequeue` calls
inside it read of the world. -/
structure TimedCall where
  now : Nat
  packet : Option (Bytes × Env)
  world : Nat → Env

def TimedCall.toCall (c : TimedCall) : LinkCall :=
  match c.packet with
  | some (contents, env) => .readPacket c.now contents env
  | none => .waitTime c.now

/-- The time of the next call, or `T` when there is none. -/
def nextCall (T : Nat) : List TimedCall → Nat
  | [] => T
  | c :: _ => c.now

/-- The calls come one after the other and before `T`, and what a call reads of
the clock it reads between its own time and the time of the next. -/
def InSequence (T : Nat) : List TimedCall → Prop
  | [] => True
  | c :: calls =>
      (∀ n, c.now ≤ (c.world n).now ∧ (c.world n).now ≤ nextCall T calls) ∧ InSequence T calls

/-- The second run is the first with `wait_time` calls added, each before some
call of the first. -/
inductive MorePolls : List TimedCall → List TimedCall → Prop where
  | nil : MorePolls [] []
  | keep (c) {calls calls'} : MorePolls calls calls' → MorePolls (c :: calls) (c :: calls')
  | poll (now world) {c calls calls'} :
      MorePolls (c :: calls) calls' → MorePolls (c :: calls) (⟨now, none, world⟩ :: calls')

theorem InSequence.now_le {T : Nat} {c : TimedCall} {calls : List TimedCall}
    (h : InSequence T (c :: calls)) : c.now ≤ nextCall T calls :=
  Nat.le_trans (h.1 0).1 (h.1 0).2

theorem InSequence.nextCall_le {T : Nat} : ∀ {calls : List TimedCall}, InSequence T calls →
    nextCall T calls ≤ T
  | [], _ => Nat.le_refl T
  | _ :: _, h => Nat.le_trans h.now_le h.2.nextCall_le

theorem MorePolls.nextCall_le {T : Nat} {c : TimedCall} {calls calls' : List TimedCall}
    (h : MorePolls (c :: calls) calls') (horder : InSequence T calls') : nextCall T calls' ≤ c.now := by
  generalize hrun : c :: calls = run at h
  induction h with
  | nil => cases hrun
  | keep c' _ _ =>
      cases hrun
      exact Nat.le_refl _
  | poll now world _ ih =>
      exact Nat.le_trans horder.now_le (ih horder.2 hrun)

namespace LinkQueue

variable {tr : Trace} {Q : Type} [AbstractPacketQueue Q] {P : Nat → Env → Q → Prop}
  {world world' : Nat → Env} {start T t now : Nat} {q q₁ : LinkQueue tr Q}

def timedCall (c : TimedCall) (q : LinkQueue tr Q) : Except Fault (LinkQueue tr Q) := do
  let (_, q) ← q.call c.world c.toCall
  return q

def runTimed : List TimedCall → LinkQueue tr Q → Except Fault (LinkQueue tr Q)
  | [], q => .ok q
  | c :: calls, q => do runTimed calls (← q.timedCall c)

/-- Whether the next turn of `sendTurn` calls `dequeue`. -/
def dequeues : Nat × LinkQueue tr Q → Prop
  | (bytesLeft, q) => 0 < bytesLeft ∧ q.packetInTransitBytesLeft = 0 ∧
      AbstractPacketQueue.empty q.packetQueue = false

/-- `P` holds of every `dequeue` call for the opportunity that is next. -/
def DeliverAsks (P : Nat → Env → Q → Prop) (world : Nat → Env) (q : LinkQueue tr Q) : Prop :=
  ∀ u, Visits (sendTurn q.nextDeliveryTime world) (packetSize, q.useADeliveryOpportunity) u →
    dequeues u → P q.nextDeliveryTime (world u.2.asked.length) u.2.packetQueue

/-- `P` holds of every `dequeue` call while the link is emulated up to `now`. -/
def RationalizeAsks (P : Nat → Env → Q → Prop) (world : Nat → Env) (now : Nat)
    (q : LinkQueue tr Q) : Prop :=
  ∀ s, Visits (whileDo (isDue now) (deliver world)) q s → isDue now s = true → s.DeliverAsks P world

/-- `P` holds of every `dequeue` call of a run. -/
def EveryDequeue (P : Nat → Env → Q → Prop) : List TimedCall → LinkQueue tr Q → Prop
  | [], _ => True
  | c :: calls, q => q.RationalizeAsks P c.world c.now ∧
      ∀ q', q.timedCall c = .ok q' → EveryDequeue P calls q'

/-! ## A poll before a call -/

theorem sendTurn_reading {u : Nat × LinkQueue tr Q}
    (h : dequeues u → AbstractPacketQueue.dequeue (world' u.2.asked.length) u.2.packetQueue
      = AbstractPacketQueue.dequeue (world u.2.asked.length) u.2.packetQueue) :
    sendTurn t world' u = sendTurn t world u := by
  obtain ⟨bytesLeft, q⟩ := u
  have hfetch : bytesLeft ≠ 0 → fetch world' q = fetch world q := by
    intro hleft
    unfold fetch
    by_cases hzero : q.packetInTransitBytesLeft = 0
    · cases hempty : AbstractPacketQueue.empty q.packetQueue with
      | true => rfl
      | false =>
          have hsame := h ⟨Nat.pos_of_ne_zero hleft, hzero, hempty⟩
          simp only at hsame
          rw [hsame]
    · rw [if_neg hzero, if_neg hzero]
  rw [sendTurn, sendTurn]
  by_cases hleft : bytesLeft = 0
  · rw [if_pos hleft, if_pos hleft]
  · rw [if_neg hleft, if_neg hleft, hfetch hleft]

omit [AbstractPacketQueue Q] in
theorem isDue_mono (hle : t ≤ now) (s : LinkQueue tr Q) (h : isDue t s = true) :
    isDue now s = true :=
  decide_eq_true (Nat.le_trans (of_decide_eq_true h) hle)

/-- What the poll does, the call after it would have done at its own reading. -/
theorem rationalize_reading
    (hP : ∀ t env env' q, P t env q → t ≤ env'.now → env'.now ≤ env.now →
      AbstractPacketQueue.dequeue env' q = AbstractPacketQueue.dequeue env q)
    (hasks : q.RationalizeAsks P world now) (hle : t ≤ now) (hnow : ∀ n, now ≤ (world n).now)
    (hearly : ∀ n, t ≤ (world' n).now ∧ (world' n).now ≤ now) :
    q.rationalize world' t = q.rationalize world t := by
  refine loop_congr _ fun s hs => ?_
  cases hdue : isDue t s with
  | false => simp only [whileDo, hdue, Bool.false_eq_true, if_false]
  | true =>
      have hs' : Visits (whileDo (isDue now) (deliver world)) q s := hs.while_weaken (isDue_mono hle)
      have hdue' : s.nextDeliveryTime ≤ t := of_decide_eq_true hdue
      have hdeliver : deliver world' s = deliver world s := by
        refine loop_congr _ fun u hu => sendTurn_reading fun hdeq => ?_
        have hask := hasks s hs' (isDue_mono hle s hdue) u hu hdeq
        obtain ⟨hlow, hhigh⟩ := hearly u.2.asked.length
        exact hP _ _ _ _ hask (Nat.le_trans hdue' hlow) (Nat.le_trans hhigh (hnow _))
      simp only [whileDo, hdue, if_true, hdeliver]

/-- The link after the poll still has only such calls before it. -/
theorem RationalizeAsks.after (hasks : q.RationalizeAsks P world now) (hle : t ≤ now)
    (hr : q.rationalize world t = .ok q₁) : q₁.RationalizeAsks P world now := by
  have hreach : Visits (whileDo (isDue now) (deliver world)) q q₁ :=
    (exits_of_loop_ok hr).while_visits.while_weaken (isDue_mono hle)
  exact fun s hs => hasks s (hreach.trans hs)

theorem timedCall_eq_ok {c : TimedCall} {q' : LinkQueue tr Q} :
    q.timedCall c = .ok q' ↔ ∃ written, q.call c.world c.toCall = .ok (written, q') := by
  simp [timedCall]

theorem timedCall_poll (t : Nat) (world : Nat → Env) (q : LinkQueue tr Q) :
    q.timedCall ⟨t, none, world⟩ = q.rationalize world t := by
  cases hr : q.rationalize world t <;> simp [timedCall, TimedCall.toCall, call, waitTime, hr]

/-- A poll before a call leaves no trace of itself. -/
theorem timedCall_after_rationalize {c : TimedCall} {q' : LinkQueue tr Q}
    (hwrap : tr.NoWraparound start T) (h : q.OnSchedule start T) (hle : t ≤ c.now) (hT : c.now ≤ T) :
    (∃ q₁, q.rationalize c.world t = .ok q₁ ∧ q₁.timedCall c = .ok q') ↔ q.timedCall c = .ok q' := by
  obtain ⟨now, packet, world⟩ := c
  have hcall : ∀ r, (∃ q₁, q.rationalize world t = .ok q₁ ∧
      q₁.call world (TimedCall.toCall ⟨now, packet, world⟩) = .ok r) ↔
      q.call world (TimedCall.toCall ⟨now, packet, world⟩) = .ok r := by
    refine call_after_rationalize world hwrap h hle hT ?_
    cases packet with
    | none => exact .inl rfl
    | some p => exact .inr ⟨p.1, p.2, rfl⟩
  simp only [timedCall_eq_ok, ← hcall]
  constructor
  · rintro ⟨q₁, hr, written, hc⟩
    exact ⟨written, q₁, hr, hc⟩
  · rintro ⟨written, q₁, hr, hc⟩
    exact ⟨q₁, hr, written, hc⟩

theorem OnSchedule.timedCall {c : TimedCall} {q' : LinkQueue tr Q} (hwrap : tr.NoWraparound start T)
    (h : q.OnSchedule start T) (hT : c.now ≤ T) (hc : q.timedCall c = .ok q') :
    q'.OnSchedule start T := by
  obtain ⟨now, packet, world⟩ := c
  cases packet with
  | none =>
      rw [timedCall_poll] at hc
      exact h.rationalize hwrap hT hc
  | some p =>
      obtain ⟨written, hc⟩ := timedCall_eq_ok.mp hc
      simp only [TimedCall.toCall, call, bind_eq_ok, pure_eq_ok, Except.ok.injEq] at hc
      obtain ⟨q₁, hr, hq⟩ := hc
      cases hq
      exact h.readPacket hwrap hT hr

/-! ## Whole runs -/

theorem runTimed_cons_eq_ok {c : TimedCall} {calls : List TimedCall} {out : LinkQueue tr Q} :
    runTimed (c :: calls) q = .ok out ↔ ∃ q₁, q.timedCall c = .ok q₁ ∧ runTimed calls q₁ = .ok out := by
  simp only [runTimed, bind_eq_ok]

/-- **Added polls.** When `P` holds of every `dequeue` call of a run, and rules
out that an earlier reading makes a difference to one, then the run comes to
the same link with more polls. -/
theorem runTimed_morePolls
    (hP : ∀ t env env' q, P t env q → t ≤ env'.now → env'.now ≤ env.now →
      AbstractPacketQueue.dequeue env' q = AbstractPacketQueue.dequeue env q)
    (hwrap : tr.NoWraparound start T) {calls calls' : List TimedCall} (h : MorePolls calls calls')
    (out : LinkQueue tr Q) : ∀ {q : LinkQueue tr Q}, q.OnSchedule start T → InSequence T calls →
    InSequence T calls' → q.EveryDequeue P calls →
    (runTimed calls q = .ok out ↔ runTimed calls' q = .ok out) := by
  induction h with
  | nil => exact fun _ _ _ _ => Iff.rfl
  | keep c _ ih =>
      intro q hq horder horder' hasks
      have hT : c.now ≤ T := Nat.le_trans horder.now_le horder.2.nextCall_le
      simp only [runTimed_cons_eq_ok]
      refine exists_congr fun q₁ => and_congr_right fun hc => ?_
      exact ih (hq.timedCall hwrap hT hc) horder.2 horder'.2 (hasks.2 q₁ hc)
  | @poll t world c calls calls' hmore ih =>
      intro q hq horder horder' hasks
      have hT : c.now ≤ T := Nat.le_trans horder.now_le horder.2.nextCall_le
      have hnext : nextCall T calls' ≤ c.now := hmore.nextCall_le horder'.2
      have hle : t ≤ c.now := Nat.le_trans horder'.now_le hnext
      have hpoll : q.rationalize world t = q.rationalize c.world t :=
        rationalize_reading hP hasks.1 hle (fun n => (horder.1 n).1)
          fun n => ⟨(horder'.1 n).1, Nat.le_trans (horder'.1 n).2 hnext⟩
      -- after the poll, the rest of the run is as in the run without it
      have hrest : ∀ q₁, q.rationalize c.world t = .ok q₁ →
          (runTimed (c :: calls) q₁ = .ok out ↔ runTimed calls' q₁ = .ok out) := by
        intro q₁ hr
        refine ih (hq.rationalize hwrap (Nat.le_trans hle hT) hr) horder horder'.2
          ⟨hasks.1.after hle hr, fun q' hc => hasks.2 q' ?_⟩
        exact (timedCall_after_rationalize hwrap hq hle hT).mp ⟨q₁, hr, hc⟩
      have hcall : ∀ q', (∃ q₁, q.rationalize c.world t = .ok q₁ ∧ q₁.timedCall c = .ok q') ↔
          q.timedCall c = .ok q' := fun _ => timedCall_after_rationalize hwrap hq hle hT
      have hsplit : runTimed (c :: calls) q = .ok out ↔
          ∃ q₁, q.rationalize c.world t = .ok q₁ ∧ runTimed (c :: calls) q₁ = .ok out := by
        simp only [runTimed_cons_eq_ok, ← hcall]
        constructor
        · rintro ⟨q', ⟨q₁, hr, hc⟩, hout⟩
          exact ⟨q₁, hr, q', hc, hout⟩
        · rintro ⟨q₁, hr, q', hc, hout⟩
          exact ⟨q', ⟨q₁, hr, hc⟩, hout⟩
      rw [hsplit, runTimed_cons_eq_ok]
      simp only [timedCall_poll, hpoll]
      exact exists_congr fun q₁ => and_congr_right (hrest q₁)

/-! ## Calls that are not late -/

/-- No call of the run comes later than the opportunity that is next. -/
def NeverLate : List TimedCall → LinkQueue tr Q → Prop
  | [], _ => True
  | c :: calls, q => c.now ≤ q.nextDeliveryTime ∧
      ∀ q' ∈ (q.timedCall c).toOption, NeverLate calls q'

instance decidableNeverLate : ∀ (calls : List TimedCall) (q : LinkQueue tr Q),
    Decidable (NeverLate calls q)
  | [], _ => inferInstanceAs (Decidable True)
  | c :: calls, q =>
      have : DecidablePred fun q' : LinkQueue tr Q => NeverLate calls q' := decidableNeverLate calls
      inferInstanceAs (Decidable (c.now ≤ q.nextDeliveryTime ∧
        ∀ q' ∈ (q.timedCall c).toOption, NeverLate calls q'))

/-- A call that is not late replays every opportunity at its own time. -/
theorem rationalizeAsks_of_notLate (hP : ∀ env q, P env.now env q)
    (hwrap : tr.NoWraparound start T) (h : q.OnSchedule start T) (hnow : now ≤ T)
    (hclock : ∀ n, (world n).now = now) (hlate : now ≤ q.nextDeliveryTime) :
    q.RationalizeAsks P world now := by
  intro s hs hdue u _ _
  obtain ⟨-, htime⟩ := hs.invariant
    (I := fun s => s.OnSchedule start T ∧ now ≤ s.nextDeliveryTime) (by
      rintro s s' ⟨hI, htime⟩ hb
      obtain ⟨hc, hb⟩ := whileDo_again.mp hb
      have hc : s.nextDeliveryTime ≤ now := of_decide_eq_true hc
      have hnext := hI.next_le hwrap hnow hc hb
      exact ⟨(hI.deliver hwrap hnow hc hb).2, Nat.le_trans htime hnext⟩) ⟨h, hlate⟩
  have hdue : s.nextDeliveryTime ≤ now := of_decide_eq_true hdue
  have hsame : s.nextDeliveryTime = (world u.2.asked.length).now := by
    rw [hclock]
    exact Nat.le_antisymm hdue htime
  rw [hsame]
  exact hP _ _

theorem everyDequeue_of_neverLate (hP : ∀ env q, P env.now env q)
    (hwrap : tr.NoWraparound start T) : ∀ {calls : List TimedCall} {q : LinkQueue tr Q},
    q.OnSchedule start T → InSequence T calls → (∀ c ∈ calls, ∀ n, (c.world n).now = c.now) →
    NeverLate calls q → q.EveryDequeue P calls
  | [], _, _, _, _, _ => trivial
  | c :: calls, q, hq, horder, hclock, ⟨hlate, hrest⟩ => by
      have hT : c.now ≤ T := Nat.le_trans horder.now_le horder.2.nextCall_le
      refine ⟨rationalizeAsks_of_notLate hP hwrap hq hT (hclock c List.mem_cons_self) hlate,
        fun q' hc => ?_⟩
      exact everyDequeue_of_neverLate hP hwrap (hq.timedCall hwrap hT hc) horder.2
        (fun c' hc' => hclock c' (List.mem_cons_of_mem _ hc')) (hrest q' (by rw [hc]; rfl))

/-! ## CoDel -/

/-- The same packets are delivered, at the same times and in the same order. -/
def SameDeliveries (o o' : Except Fault (LinkQueue tr Q)) : Prop :=
  o.toOption.map (fun q => (q.departed, q.outputQueue))
    = o'.toOption.map (fun q => (q.departed, q.outputQueue))

omit [AbstractPacketQueue Q] in
theorem sameDeliveries_of_forall {o o' : Except Fault (LinkQueue tr Q)}
    (h : ∀ q, o = .ok q ↔ o' = .ok q) : SameDeliveries o o' := by
  cases o with
  | ok q => rw [(h q).mp rfl, SameDeliveries]
  | error e =>
      cases o' with
      | ok q => cases (h q).mpr rfl
      | error e' => rfl

/-- **Polls and CoDel.** When every `dequeue` call of a run would decide at the
time of the opportunity as it decides at its own reading of the clock, polls
that are added to the run change nothing about the deliveries. -/
theorem steady_codel_ignores_polls (W : Arith) (l : Limits) (target interval : Nat)
    (controlStep : Nat → Nat) (tr : Trace) (start T : Nat) (calls calls' : List TimedCall)
    (hwrap : tr.NoWraparound start T) (hmore : MorePolls calls calls')
    (horder : InSequence T calls) (horder' : InSequence T calls')
    (hsteady : (initial tr (CODELPacketQueue.initial W l target interval controlStep)
      start).EveryDequeue (fun t env q => q.DequeueSteady t env.now) calls) :
    SameDeliveries
      (runTimed calls (initial tr (CODELPacketQueue.initial W l target interval controlStep) start))
      (runTimed calls'
        (initial tr (CODELPacketQueue.initial W l target interval controlStep) start)) :=
  sameDeliveries_of_forall fun out =>
    runTimed_morePolls (fun _ _ _ _ hP ht hr => CODELPacketQueue.dequeue_of_steady hP ht hr) hwrap
      hmore out (onSchedule_initial tr _ start T) horder horder' hsteady

end LinkQueue

/-! ## Runs on a clock that stands still during a call -/

def packetAt (now : Nat) (contents : Bytes) : TimedCall :=
  ⟨now, some (contents, ⟨now, 0, 0⟩), fun _ => ⟨now, 0, 0⟩⟩

def pollAt (now : Nat) : TimedCall := ⟨now, none, fun _ => ⟨now, 0, 0⟩⟩

/-- One opportunity every 50 ms, over and over. -/
def every50Ms : Trace := ⟨[50], true, by simp, by simp, by decide⟩

/-- Six full-size packets at once. -/
def standing : List TimedCall :=
  (List.range 6).map fun i => packetAt 0 (List.replicate 1504 i.toUInt8)

theorem standing_still : ∀ c ∈ standing ++ [pollAt 50, pollAt 100, pollAt 150, pollAt 200],
    ∀ n, (c.world n).now = c.now := by
  intro c hc n
  simp only [standing, List.mem_append, List.mem_map, List.mem_cons, List.not_mem_nil,
    or_false] at hc
  rcases hc with ⟨i, -, rfl⟩ | rfl | rfl | rfl | rfl <;> rfl

namespace LinkQueue

/-- Polled at every opportunity, CoDel has dropped a packet of the standing
queue by 200 ms; one more poll, at 120 ms, changes nothing about that. -/
theorem steady_codel_ignores_polls_standing :
    SameDeliveries
      (runTimed (standing ++ [pollAt 50, pollAt 100, pollAt 150, pollAt 200])
        (initial every50Ms (CODELPacketQueue.initial .machine ⟨100, 0⟩ 5 100
          (Nat.sqrt <| 100 ^ 2 / ·)) 0))
      (runTimed (standing ++ [pollAt 50, pollAt 100, pollAt 120, pollAt 150, pollAt 200])
        (initial every50Ms (CODELPacketQueue.initial .machine ⟨100, 0⟩ 5 100
          (Nat.sqrt <| 100 ^ 2 / ·)) 0)) := by
  have hwrap : every50Ms.NoWraparound 0 200 := .of_lt (by decide) (by decide)
  have horder : InSequence 200 (standing ++ [pollAt 50, pollAt 100, pollAt 150, pollAt 200]) := by
    simp [InSequence, nextCall, standing, packetAt, pollAt, List.range_succ, -List.reduceReplicate]
  have horder' : InSequence 200
      (standing ++ [pollAt 50, pollAt 100, pollAt 120, pollAt 150, pollAt 200]) := by
    simp [InSequence, nextCall, standing, packetAt, pollAt, List.range_succ, -List.reduceReplicate]
  refine steady_codel_ignores_polls .machine ⟨100, 0⟩ 5 100 (Nat.sqrt <| 100 ^ 2 / ·) every50Ms
    0 200 _ _ hwrap ?_ horder horder' ?_
  · exact .keep _ (.keep _ (.keep _ (.keep _ (.keep _ (.keep _ (.keep _ (.keep _
      (.poll _ _ (.keep _ (.keep _ .nil))))))))))
  · exact everyDequeue_of_neverLate (fun env q => CODELPacketQueue.dequeueSteady_self env.now q)
      hwrap (onSchedule_initial _ _ 0 200) horder standing_still (by decide +kernel)

/-- With a target of 5 ms and an interval of 100 ms, a link that is not polled
for 200 ms delivers the first four packets. Polled at every opportunity, CoDel
finds the queue over the target since 50 ms, and begins to drop at 150 ms. -/
theorem polls_change_codel_deliveries :
    every50Ms.NoWraparound 0 200 ∧
      MorePolls (standing ++ [pollAt 200])
        (standing ++ [pollAt 50, pollAt 100, pollAt 150, pollAt 200]) ∧
      InSequence 200 (standing ++ [pollAt 200]) ∧
      InSequence 200 (standing ++ [pollAt 50, pollAt 100, pollAt 150, pollAt 200]) ∧
      ¬ SameDeliveries
        (runTimed (standing ++ [pollAt 200])
          (initial every50Ms (CODELPacketQueue.initial .machine ⟨100, 0⟩ 5 100
            (Nat.sqrt <| 100 ^ 2 / ·)) 0))
        (runTimed (standing ++ [pollAt 50, pollAt 100, pollAt 150, pollAt 200])
          (initial every50Ms (CODELPacketQueue.initial .machine ⟨100, 0⟩ 5 100
            (Nat.sqrt <| 100 ^ 2 / ·)) 0)) := by
  refine ⟨.of_lt (by decide) (by decide), ?_, ?_, ?_, ?_⟩
  · exact .keep _ (.keep _ (.keep _ (.keep _ (.keep _ (.keep _
      (.poll _ _ (.poll _ _ (.poll _ _ (.keep _ .nil)))))))))
  · simp [InSequence, nextCall, standing, packetAt, pollAt, List.range_succ, -List.reduceReplicate]
  · simp [InSequence, nextCall, standing, packetAt, pollAt, List.range_succ, -List.reduceReplicate]
  · unfold SameDeliveries
    decide +kernel

end LinkQueue

end Mahimahi
