import Mahimahi.DelayTiming
import Mahimahi.LinkPolls

/-!
# The timeout that reaches poll

The loop asks its queue for the time until the next event and hands the answer
to `::poll`. On the way the 64-bit difference of two times becomes an
`unsigned int`, which is what `wait_time` returns, and then an `int`, which is
what the function that wraps it returns. `::poll` reads 0 as "now" and a negative
timeout as "never", and the delay queues read the `unsigned int` 0 as "there is
something to write".

What is left of a difference `d` is `d % 2 ^ 32`, so the answer is right exactly
when that is neither 0 nor beyond `int` (`Survives`): `timeoutRight_iff` for the
timeout, `pollsWell_iff` for the write as well, in terms of what a queue has on
top. The rest is what the three queues have on top in a run. What a wrong answer
leads to, the exception "busy wait detected" of the poller or packets that stay
where they are, is `delay_ferry_iff`, over runs of the whole shell.
-/

namespace Mahimahi

/-! ## Two conversions -/

/-- What `::poll` is given: the `unsigned int` of `wait_time`, as an `int`. -/
def pollTimeout (waitTime : Nat) : Int := i32 waitTime

/-- The timeout is right at the reading `now`, given the time of the next event:
it is 0 only when the event is due, and otherwise ends no later than the event. -/
structure TimeoutRight (timeout : Int) (event : Option Nat) (now : Nat) : Prop where
  due : timeout = 0 → ∃ t ∈ event, t ≤ now
  remaining : timeout ≠ 0 → ∀ t ∈ event, 1 ≤ timeout ∧ timeout ≤ (t : Int) - now

/-- What the conversions leave of the distance is a positive `int`. -/
def Survives (distance : Nat) : Prop := 0 < distance % 2 ^ 32 ∧ distance % 2 ^ 32 < 2 ^ 31

instance (distance : Nat) : Decidable (Survives distance) :=
  inferInstanceAs (Decidable (_ ∧ _))

theorem pollTimeout_of_lt {n : Nat} (h : n < 2 ^ 31) : pollTimeout n = n := by
  rw [pollTimeout, i32]
  exact Int.bmod_eq_of_le (by omega) (by omega)

theorem pollTimeout_of_ge {n : Nat} (h : 2 ^ 31 ≤ n) (hlt : n < 2 ^ 32) : pollTimeout n < 0 := by
  rw [pollTimeout, i32, Int.bmod_def]
  split <;> omega

theorem pollTimeout_eq_zero {n : Nat} (hlt : n < 2 ^ 32) : pollTimeout n = 0 ↔ n = 0 := by
  rcases Nat.lt_or_ge n (2 ^ 31) with h | h
  · rw [pollTimeout_of_lt h]
    omega
  · have := pollTimeout_of_ge h hlt
    omega

theorem timeoutRight_of_due {t now : Nat} (h : t ≤ now) :
    TimeoutRight (pollTimeout 0) (some t) now := by
  have hzero : pollTimeout 0 = 0 := rfl
  exact ⟨fun _ => ⟨t, rfl, h⟩, fun hne => absurd hzero hne⟩

/-- Ahead of an event, the conversions decide. -/
theorem timeoutRight_iff {t now : Nat} (h : now < t) :
    TimeoutRight (pollTimeout (u32 (t - now))) (some t) now ↔ Survives (t - now) := by
  have hlt : u32 (t - now) < 2 ^ 32 := Nat.mod_lt _ (by decide)
  have hle : u32 (t - now) ≤ t - now := Nat.mod_le _ _
  constructor
  · intro hright
    have hne : pollTimeout (u32 (t - now)) ≠ 0 := by
      intro hzero
      obtain ⟨t', ht', hdue⟩ := hright.due hzero
      cases ht'
      omega
    have hpos := (hright.remaining hne t rfl).1
    refine ⟨Nat.pos_of_ne_zero fun hzero => hne ((pollTimeout_eq_zero hlt).mpr hzero), ?_⟩
    by_contra hge
    have hge : 2 ^ 31 ≤ u32 (t - now) := Nat.le_of_not_lt hge
    have := pollTimeout_of_ge hge hlt
    omega
  · rintro ⟨hpos, hint⟩
    have hpos : 0 < u32 (t - now) := hpos
    have heq : pollTimeout (u32 (t - now)) = u32 (t - now) := pollTimeout_of_lt hint
    refine ⟨fun hzero => ?_, fun _ t' ht' => ?_⟩
    · rw [heq] at hzero
      omega
    · cases ht'
      rw [heq]
      omega

/-! ## The delay queues -/

/-- `wait_time` of a delay queue, given the packet that leaves next. -/
def releaseWait (next : Option DelayPktPair) (now : Nat) : Nat :=
  match next with
  | none => 2 ^ 16 - 1
  | some front => if front.1 ≤ now then 0 else u32 (front.1 - now)

def DelayQueue.waitTime (now : Nat) (q : DelayQueue) : Nat := releaseWait q.packetQueue.head? now

def DelayQueue.pendingOutput (now : Nat) (q : DelayQueue) : Bool := decide (q.waitTime now ≤ 0)

def AdvDelayQueue.waitTime {K : ReleaseQueue} (now : Nat) (q : AdvDelayQueue K) : Nat :=
  releaseWait (K.top q.packetQueue) now

def AdvDelayQueue.pendingOutput {K : ReleaseQueue} (now : Nat) (q : AdvDelayQueue K) : Bool :=
  decide (q.waitTime now ≤ 0)

/-- A round of the loop goes well at the reading `now`: the timeout is right, and
when the queue says that it has something to write, `write_packets` at the same
reading writes. -/
structure PollsWell {Q : Type} (step : DelayRun Q → FerryCall → Option (DelayRun Q))
    (waitTime : Nat) (pendingOutput : Bool) (next : Option DelayPktPair) (now : Nat)
    (s : DelayRun Q) : Prop where
  timeout : TimeoutRight (pollTimeout waitTime) (next.map Prod.fst) now
  writes : pendingOutput = true → ∃ s', step s (.writePackets fun _ => now) = some s' ∧
    s.written.length < s'.written.length

/-- The packet on top decides, as long as `write_packets` writes when it is due
and not empty, and only then. -/
theorem pollsWell_iff {Q : Type} {step : DelayRun Q → FerryCall → Option (DelayRun Q)}
    {next : Option DelayPktPair} {now : Nat} {s : DelayRun Q}
    (hwrites : (∃ s', step s (.writePackets fun _ => now) = some s' ∧
      s.written.length < s'.written.length) ↔ ∃ x ∈ next, x.1 ≤ now ∧ x.2 ≠ []) :
    PollsWell step (releaseWait next now) (decide (releaseWait next now ≤ 0)) next now s ↔
      ∀ x ∈ next, (x.1 ≤ now → x.2 ≠ []) ∧ (now < x.1 → Survives (x.1 - now)) := by
  cases next with
  | none =>
      refine iff_of_true ⟨⟨fun hzero => ?_, fun _ t ht => (by cases ht)⟩, fun hpending => ?_⟩
        fun x hx => (by cases hx)
      · have hzero : pollTimeout (2 ^ 16 - 1) = 0 := hzero
        exact absurd hzero (by decide)
      · have hpending : decide (2 ^ 16 - 1 ≤ 0) = true := hpending
        exact absurd hpending (by decide)
  | some front =>
      by_cases hdue : front.1 ≤ now
      · have hwait : releaseWait (some front) now = 0 := if_pos hdue
        rw [hwait]
        constructor
        · intro h x hx
          cases hx
          obtain ⟨x, hx, -, hne⟩ := hwrites.mp (h.writes rfl)
          cases hx
          exact ⟨fun _ => hne, fun hlt => absurd hdue (Nat.not_le.mpr hlt)⟩
        · intro h
          exact ⟨timeoutRight_of_due hdue,
            fun _ => hwrites.mpr ⟨front, rfl, hdue, (h front rfl).1 hdue⟩⟩
      · have hahead : now < front.1 := Nat.lt_of_not_le hdue
        have hwait : releaseWait (some front) now = u32 (front.1 - now) := if_neg hdue
        rw [hwait]
        constructor
        · intro h x hx
          cases hx
          exact ⟨fun hle => absurd hle hdue, fun _ => (timeoutRight_iff hahead).mp h.timeout⟩
        · intro h
          have hsurvives := (h front rfl).2 hahead
          refine ⟨(timeoutRight_iff hahead).mpr hsurvives, fun hpending => ?_⟩
          have hzero : u32 (front.1 - now) ≤ 0 := of_decide_eq_true hpending
          have hpos : 0 < u32 (front.1 - now) := hsurvives.1
          omega

namespace DelayQueue

/-- What the step of a run adds to the history, whether the call returns or throws. -/
theorem step_writePackets (clock : Nat → Nat) (s : DelayRun DelayQueue) :
    ∃ s', step s (.writePackets clock) = some s' ∧
      s'.written = s.written ++ departures clock 0 (drain clock 0 s.queue.packetQueue).1 := by
  simp only [step]
  cases hq : s.queue.writePackets clock with
  | error f => exact ⟨_, rfl, rfl⟩
  | ok r =>
      obtain ⟨⟨written, left⟩, hloop, hret⟩ := bind_eq_ok.mp hq
      cases hret
      exact ⟨_, rfl, by rw [drain_of_ok hloop]⟩

theorem drain_ne_nil (clock : Nat → Nat) (k : Nat) (q : List DelayPktPair) :
    (drain clock k q).1 ≠ [] ↔ ∃ x ∈ q.head?, x.1 ≤ clock k ∧ x.2 ≠ [] := by
  cases q with
  | nil => simp [drain]
  | cons front rest =>
      by_cases hdue : front.1 ≤ clock k
      · by_cases hne : front.2 = []
        · simp [drain, write, hdue, hne]
        · simp [drain, hdue, hne, write_eq_ok hne]
      · simp [drain, hdue]

def PollsWell (now : Nat) (s : DelayRun DelayQueue) : Prop :=
  Mahimahi.PollsWell step (s.queue.waitTime now) (s.queue.pendingOutput now)
    s.queue.packetQueue.head? now s

theorem pollsWell_iff_front (now : Nat) (s : DelayRun DelayQueue) : PollsWell now s ↔
    ∀ front ∈ s.queue.packetQueue.head?,
      (front.1 ≤ now → front.2 ≠ []) ∧ (now < front.1 → Survives (front.1 - now)) := by
  refine pollsWell_iff ?_
  obtain ⟨s', hstep, hwritten⟩ := step_writePackets (fun _ => now) s
  rw [← drain_ne_nil (fun _ => now) 0]
  simp only [hstep, Option.some.injEq, exists_eq_left', hwritten, List.length_append,
    length_departures]
  rw [← List.length_pos_iff]
  omega

end DelayQueue

/-- At a clock that stands still, everything leaves at one time. -/
theorem departures_of_mem {now : Nat} {w : Nat × Bytes} : ∀ {k : Nat} {written : List Bytes},
    w ∈ departures (fun _ => now) k written → w.1 = now
  | _, [], h => by cases h
  | k, _ :: written, h => by
      rcases List.mem_cons.mp h with rfl | h
      · rfl
      · exact departures_of_mem h

namespace AdvDelayQueue

variable {K : ReleaseQueue}

/-- Nothing queued is empty. -/
def Writable (s : DelayRun (AdvDelayQueue K)) : Prop :=
  ∀ x ∈ K.elements s.queue.packetQueue, x.2 ≠ []

theorem Writable.step {s s' : DelayRun (AdvDelayQueue K)} {call : FerryCall} (h : Writable s)
    (hstep : AdvDelayQueue.step s call = some s') : Writable s' := by
  cases call with
  | readPacket now contents =>
      simp only [AdvDelayQueue.step] at hstep
      cases hq : s.queue.readPacket now contents with
      | error f => simp [hq] at hstep
      | ok queue =>
          cases hd : LoggedQueue.delayOf s.queue contents with
          | error f => simp [hq, hd] at hstep
          | ok delay =>
              simp only [hq, hd, Option.some.injEq] at hstep
              subst hstep
              obtain ⟨hsize, d, q₁, hdelay, rfl⟩ := readPacket_cases hq
              have hsame : q₁.packetQueue = s.queue.packetQueue := by
                rcases getDelayFor_cases hdelay with ⟨ip, p, rule, -, -, -, -, rfl⟩ | ⟨rfl, -⟩ <;> rfl
              intro x hx
              rcases List.mem_cons.mp ((K.emplace_perm ..).mem_iff.mp hx) with rfl | hx
              · have hne : contents ≠ [] := by
                  rintro rfl
                  simp at hsize
                exact hne
              · rw [hsame] at hx
                exact h x hx
  | writePackets clock =>
      obtain ⟨written, packets, out, hq, hperm, -⟩ := s.queue.writePackets_drained clock h
      simp only [AdvDelayQueue.step, hq, Option.some.injEq] at hstep
      subst hstep
      exact fun x hx => h x (hperm.mem_iff.mp (List.mem_append_right _ hx))

theorem step_writePackets (clock : Nat → Nat) {s : DelayRun (AdvDelayQueue K)} (h : Writable s) :
    ∃ s' written out, step s (.writePackets clock) = some s' ∧
      s'.written = s.written ++ departures clock 0 written ∧
      (out ++ K.elements s'.queue.packetQueue).Perm (K.elements s.queue.packetQueue) ∧
      Drained clock 0 written out (K.elements s'.queue.packetQueue) := by
  obtain ⟨written, packets, out, hq, hperm, hdrained⟩ := s.queue.writePackets_drained clock h
  exact ⟨⟨{ s.queue with packetQueue := packets }, s.read, s.written ++ departures clock 0 written⟩,
    written, out, by simp [step, hq], rfl, hperm, hdrained⟩

/-- The loop writes when the packet on top is due: then nothing that is left can
be it, and before that nothing can leave. -/
theorem written_ne_nil {now : Nat} {packets packets' : K.Carrier} {written : List Bytes}
    {out : List DelayPktPair} (hperm : (out ++ K.elements packets').Perm (K.elements packets))
    (hdrained : Drained (fun _ => now) 0 written out (K.elements packets')) :
    written ≠ [] ↔ ∃ top ∈ K.top packets, top.1 ≤ now := by
  have hlen : written.length = out.length := by
    have := hdrained.leaves.length_eq
    rwa [length_departures] at this
  constructor
  · intro hne
    obtain ⟨x, hx⟩ : ∃ x, x ∈ out := by
      refine List.exists_mem_of_ne_nil out fun hnil => hne ?_
      rw [hnil] at hlen
      exact List.length_eq_zero_iff.mp hlen
    have hqueued : x ∈ K.elements packets := hperm.mem_iff.mp (List.mem_append_left _ hx)
    cases htop : K.top packets with
    | none => simp [(K.top_eq_none packets).mp htop] at hqueued
    | some top =>
        obtain ⟨i, hi, rfl⟩ := List.getElem_of_mem hx
        have hi' : i < (departures (fun _ => now) 0 written).length := by
          rw [length_departures]
          omega
        have hleaves : LeavesAs (departures (fun _ => now) 0 written)[i] out[i] :=
          hdrained.leaves.get hi' hi
        have hread := departures_of_mem (List.getElem_mem hi')
        refine ⟨top, rfl, Nat.le_trans (K.top_le packets top htop _ hqueued) ?_⟩
        rw [← hread]
        exact hleaves.2
  · rintro ⟨top, htop, hdue⟩ rfl
    have hnil : out = [] := List.length_eq_zero_iff.mp hlen.symm
    rw [hnil, List.nil_append] at hperm
    have hmem : top ∈ K.elements packets :=
      (K.pop_perm packets top htop).mem_iff.mpr List.mem_cons_self
    exact absurd hdue (Nat.not_le.mpr (hdrained.waiting top (hperm.mem_iff.mpr hmem)))

def PollsWell (now : Nat) (s : DelayRun (AdvDelayQueue K)) : Prop :=
  Mahimahi.PollsWell step (s.queue.waitTime now) (s.queue.pendingOutput now)
    (K.top s.queue.packetQueue) now s

theorem pollsWell_iff_top (now : Nat) {s : DelayRun (AdvDelayQueue K)} (h : Writable s) :
    PollsWell now s ↔
      ∀ top ∈ K.top s.queue.packetQueue, now < top.1 → Survives (top.1 - now) := by
  have htop : ∀ top ∈ K.top s.queue.packetQueue, top.2 ≠ [] := fun top htop =>
    h top ((K.pop_perm _ top htop).mem_iff.mpr List.mem_cons_self)
  have hiff : PollsWell now s ↔ ∀ top ∈ K.top s.queue.packetQueue,
      (top.1 ≤ now → top.2 ≠ []) ∧ (now < top.1 → Survives (top.1 - now)) := by
    refine pollsWell_iff ?_
    obtain ⟨s', written, out, hstep, hwritten, hperm, hdrained⟩ :=
      step_writePackets (fun _ => now) h
    simp only [hstep, Option.some.injEq, exists_eq_left', hwritten, List.length_append,
      length_departures]
    have hwrites := written_ne_nil hperm hdrained
    rw [← List.length_pos_iff] at hwrites
    constructor
    · intro hlt
      obtain ⟨top, hmem, hdue⟩ := hwrites.mp (by omega)
      exact ⟨top, hmem, hdue, htop top hmem⟩
    · rintro ⟨top, hmem, hdue, -⟩
      have := hwrites.mpr ⟨top, hmem, hdue⟩
      omega
  rw [hiff]
  exact forall₂_congr fun top hmem => ⟨fun h => h.2, fun h => ⟨fun _ => htop top hmem, h⟩⟩

end AdvDelayQueue

/-! ## The link

Once it has been emulated up to the clock reading, nothing is due any more. The
link that is over has no event left, and waits for the end of `uint64_t`. -/

namespace LinkQueue

variable {tr : Trace} {Q : Type}

def pendingOutput (q : LinkQueue tr Q) : Bool := !q.outputQueue.isEmpty

/-- What `wait_time` returns of a link that has been emulated up to `now`. -/
def timeLeft (now : Nat) (q : LinkQueue tr Q) : Nat :=
  if q.nextDeliveryTime ≤ now then 0 else u32 (q.nextDeliveryTime - now)

/-- The time of the next delivery opportunity. -/
def nextEvent (q : LinkQueue tr Q) : Option Nat :=
  if q.finished then none else some q.nextDeliveryTime

structure PollsWell (now : Nat) (q : LinkQueue tr Q) : Prop where
  timeout : TimeoutRight (pollTimeout (q.timeLeft now)) q.nextEvent now
  writes : q.pendingOutput = true →
    ∃ written q', q.writePackets = .ok (written, q') ∧ written ≠ []

/-- What is ready to be written can be written. -/
def Writable (q : LinkQueue tr Q) : Prop := ∀ contents ∈ q.outputQueue, contents ≠ []

variable [AbstractPacketQueue Q] {world : Nat → Env} {now : Nat} {q q' : LinkQueue tr Q}

theorem waitTime_eq (world : Nat → Env) (now : Nat) (q : LinkQueue tr Q) :
    q.waitTime world now = (fun q' => (q'.timeLeft now, q')) <$> q.rationalize world now := by
  unfold waitTime
  cases q.rationalize world now <;> rfl

/-- A packet is sent when it is in transit, and then it is not empty. -/
theorem Writable.deliver (h : q.Writable) (hd : LinkQueue.deliver world q = .ok q') :
    q'.Writable := by
  obtain ⟨-, hI, -⟩ := deliver_invariant hd (I := fun _ s => s.Writable) h
    fun _ s s₁ hI _ hf ht => by
      have hs₁ : s₁.Writable := by
        obtain ⟨_, _, _, _, rfl⟩ := fetch_frame hf
        exact hI
      simp only [send]
      split
      · intro contents hmem
        rcases List.mem_append.mp hmem with hmem | hmem
        · exact hs₁ contents hmem
        · obtain rfl := List.mem_singleton.mp hmem
          have hpos := Nat.lt_of_lt_of_le ht.pos ht.le_size
          exact List.length_pos_iff.mp hpos
      · exact hs₁
  exact hI

theorem Writable.emulatedTo (h : q.Writable) (he : EmulatedTo world now q q') :
    q'.Writable ∧ now < q'.nextDeliveryTime :=
  he.invariant h fun _ _ hI _ hd => hI.deliver hd

/-- The states that the calls of the loop lead to from `q₀`. -/
inductive Reachable (world : Nat → Env) (q₀ : LinkQueue tr Q) : LinkQueue tr Q → Prop where
  | start : Reachable world q₀ q₀
  | readPacket {q q₁ q' : LinkQueue tr Q} {now : Nat} {contents : Bytes} {env : Env} :
      Reachable world q₀ q → contents.length ≤ packetSize → EmulatedTo world now q q₁ →
      q₁.accept now contents env = .ok q' → Reachable world q₀ q'
  | waitTime {q q' : LinkQueue tr Q} {now : Nat} : Reachable world q₀ q →
      EmulatedTo world now q q' → Reachable world q₀ q'
  | writePackets {q q' : LinkQueue tr Q} {written : List Bytes} : Reachable world q₀ q →
      q.writePackets = .ok (written, q') → Reachable world q₀ q'

theorem reachable_of_run {q₀ : LinkQueue tr Q} : ∀ {calls : List LinkCall} {q q' : LinkQueue tr Q}
    {written : List Bytes}, Reachable world q₀ q → run world calls q = .ok (written, q') →
    Reachable world q₀ q'
  | [], _, _, _, h, hrun => by
      cases hrun
      exact h
  | c :: calls, q, q', _, h, hrun => by
      obtain ⟨⟨w, q₁⟩, hc, ⟨w', q₂⟩, hrest, hout⟩ := run_cons_eq_ok.mp hrun
      cases hout
      refine reachable_of_run ?_ hrest
      cases called_of_call hc with
      | readPacket hsize hr ha => exact .readPacket h hsize (emulatedTo_of_rationalize hr) ha
      | waitTime hr => exact .waitTime h (emulatedTo_of_rationalize hr)
      | writePackets _ heq =>
          subst heq
          exact .writePackets h hc

theorem Reachable.writable {q₀ : LinkQueue tr Q} (h : Reachable world q₀ q) (h₀ : q₀.Writable) :
    q.Writable := by
  induction h with
  | start => exact h₀
  | readPacket _ _ he ha ih =>
      obtain ⟨_, _, _, _, -, -, -, -, rfl⟩ := accept_eq_ok ha
      exact (ih.emulatedTo he).1
  | waitTime _ he ih => exact (ih.emulatedTo he).1
  | writePackets _ hw ih =>
      simp only [LinkQueue.writePackets] at hw
      split at hw
      · cases hw
      · cases hw
        intro contents hmem
        cases hmem

omit [AbstractPacketQueue Q] in
/-- While the link is up, its next opportunity decides; when it is over, only a
timeout of 0 can be wrong. -/
theorem pollsWell_iff_next (h : q.Writable) (hnow : now < q.nextDeliveryTime) :
    q.PollsWell now ↔ if q.finished then (2 ^ 64 - 1 - now) % 2 ^ 32 ≠ 0
      else Survives (q.nextDeliveryTime - now) := by
  have hleft : q.timeLeft now = u32 (q.nextDeliveryTime - now) := if_neg (Nat.not_le.mpr hnow)
  have hwrites : q.pendingOutput = true →
      ∃ written q', q.writePackets = .ok (written, q') ∧ written ≠ [] := by
    intro hpending
    have hany : q.outputQueue.any (·.isEmpty) = false := by simpa [Writable] using h
    have hne : q.outputQueue ≠ [] := by simpa [pendingOutput] using hpending
    exact ⟨q.outputQueue, { q with outputQueue := [] }, by simp [writePackets, hany], hne⟩
  have hpolls : q.PollsWell now ↔ TimeoutRight (pollTimeout (q.timeLeft now)) q.nextEvent now :=
    ⟨fun h => h.timeout, fun h => ⟨h, hwrites⟩⟩
  rw [hpolls, hleft]
  cases hf : q.finished with
  | true =>
      have hnone : q.nextEvent = none := if_pos hf
      have hzero := pollTimeout_eq_zero (n := u32 (2 ^ 64 - 1 - now)) (Nat.mod_lt _ (by decide))
      rw [nextDeliveryTime_of_finished hf, hnone, if_pos rfl]
      constructor
      · intro hright hmod
        obtain ⟨t, ht, -⟩ := hright.due (hzero.mpr hmod)
        cases ht
      · intro hmod
        exact ⟨fun h => absurd (hzero.mp h) hmod, fun _ t ht => (by cases ht)⟩
  | false =>
      have hsome : q.nextEvent = some q.nextDeliveryTime := if_neg (by simp [hf])
      rw [hsome, if_neg Bool.false_ne_true]
      exact timeoutRight_iff hnow

end LinkQueue

/-! ## All runs -/

/-- **When the timeout is right.** At every clock reading, in every state that a
queue can reach: what goes to `::poll` is right, and what is announced is written,
if and only if the time remaining to the next event survives the conversions, be
it the release of a packet that is not due yet or a delivery opportunity. For
`DelayQueue` the packet that leaves next must not be empty when it is due, as
none is that was read from a tun device; after the end of its trace a link has
to be asked at a reading from which the end of `uint64_t` is not a multiple of
`2 ^ 32` away. -/
theorem poll_timeout_right_iff (now : Nat) :
    (∀ (delayMs : Nat) (calls : List FerryCall),
      Always DelayQueue.step (fun s => DelayQueue.PollsWell now s ↔
          ∀ front ∈ s.queue.packetQueue.head?,
            (front.1 ≤ now → front.2 ≠ []) ∧ (now < front.1 → Survives (front.1 - now)))
        (.start (.initial delayMs)) calls) ∧
    (∀ (K : ReleaseQueue) (delayMs : Nat) (rules : DelayRules) (uplink : Bool)
        (calls : List FerryCall),
      Always AdvDelayQueue.step (fun s => AdvDelayQueue.PollsWell now s ↔
          ∀ top ∈ K.top s.queue.packetQueue, now < top.1 → Survives (top.1 - now))
        (.start (.initial K delayMs rules uplink)) calls) ∧
    ∀ (tr : Trace) (Q : Type) [AbstractPacketQueue Q] (packetQueue : Q) (start : Nat)
        (world : Nat → Env) (q q' : LinkQueue tr Q),
      LinkQueue.Reachable world (.initial tr packetQueue start) q →
      LinkQueue.EmulatedTo world now q q' →
      (q'.PollsWell now ↔ if q'.finished then (2 ^ 64 - 1 - now) % 2 ^ 32 ≠ 0
        else Survives (q'.nextDeliveryTime - now)) := by
  refine ⟨fun delayMs calls => ?_, fun K delayMs rules uplink calls => ?_,
    fun tr Q _ packetQueue start world q q' hreach he => ?_⟩
  · exact always_of_eachStep (I := fun _ => True) (G := fun _ _ => True)
      (fun s _ => DelayQueue.pollsWell_iff_front now s) (fun _ _ _ _ _ _ => trivial) trivial
      (eachStep_true ..)
  · refine always_of_eachStep (I := AdvDelayQueue.Writable) (G := fun _ _ => True)
      (fun s hs => AdvDelayQueue.pollsWell_iff_top now hs) (fun s call s' hs hstep _ => hs.step hstep)
      ?_ (eachStep_true ..)
    intro x hx
    have hx : x ∈ K.elements K.empty := hx
    rw [K.elements_empty] at hx
    cases hx
  · have hwritable : q.Writable := hreach.writable fun contents hmem => (by cases hmem)
    obtain ⟨hwritable', hlt⟩ := hwritable.emulatedTo he
    exact LinkQueue.pollsWell_iff_next hwritable' hlt

/-- A link 10 ms after its start, with its next opportunity at 50 ms. -/
theorem poll_timeout_right_iff_fifty :
    (LinkQueue.initial every50Ms (InfinitePacketQueue.initial .machine) 0).PollsWell 10 :=
  ((poll_timeout_right_iff 10).2.2 every50Ms (InfinitePacketQueue .machine) _ 0
    (fun _ => ⟨0, 0, 0⟩) _ _ .start (.leave (whileDo_leave.mpr ⟨rfl, rfl⟩))).mpr
    ⟨by decide, by decide⟩

/-- A delay of `2 ^ 32` ms, and a packet that has just been read: the timeout is 0
with nothing due, and what is announced is not written. -/
theorem busy_wait_for_fifty_days :
    let s : DelayRun DelayQueue :=
      ⟨(DelayQueue.initial (2 ^ 32)).readPacket 0 (ipPacket 1), [⟨0, 2 ^ 32, ipPacket 1⟩], []⟩
    DelayQueue.step (.start (.initial (2 ^ 32))) (.readPacket 0 (ipPacket 1)) = some s ∧
    pollTimeout (s.queue.waitTime 0) = 0 ∧ s.queue.pendingOutput 0 = true ∧
    s.queue.writePackets (fun _ => 0) = .ok ([], s.queue) ∧ ¬ DelayQueue.PollsWell 0 s := by
  refine ⟨rfl, by decide, by decide, rfl, fun h => ?_⟩
  obtain ⟨t, ht, hdue⟩ := h.timeout.due (by decide)
  cases ht
  exact absurd hdue (by decide)

end Mahimahi
