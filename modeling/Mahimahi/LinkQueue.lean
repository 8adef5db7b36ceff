import Mathlib.Data.List.Basic
import Mahimahi.Loop
import Mahimahi.PacketQueue

/-!
# The link emulator

`LinkQueue` delivers packets at the times of a trace. `rationalize` burns
the delivery opportunities up to a time, one turn of its loop each
(`deliver`); an opportunity carries up to `packetSize` bytes, moved by the
turns of a second loop (`sendTurn`) from the packet in transit, which may
have been left over from an earlier opportunity.

What the queue discipline reads of the world in its `dequeue` calls is a
parameter, `world`: the `n`-th of these calls gets `world n`. The state
carries two histories: `records`, the arguments of the `record_*` calls that
write the log, and `asked`, the queues on which `dequeue` has been called.

The rest of the file says once what the turns of the two loops can do
(`sendTurn_cases`, `deliver_cases`). What follows from it is in `LinkClock`,
`LinkService` and `LinkLog`.
-/

namespace Mahimahi

/-- What the constructor takes and keeps: `schedule_`, with the conditions
that it checks, and `repeat_`. -/
structure Trace where
  schedule : List Nat
  repeats : Bool
  nonempty : schedule ≠ []
  sorted : schedule.Pairwise (· ≤ ·)
  last_pos : 0 < schedule.getLast nonempty

namespace Trace

def last (tr : Trace) : Nat := tr.schedule.getLast tr.nonempty

theorem length_pos (tr : Trace) : 0 < tr.schedule.length := List.length_pos_iff.mpr tr.nonempty

end Trace

/-- What the `record_*` methods are called with. -/
inductive Record where
  | arrival (time size : Nat)
  | drop (time packets bytes : Nat)
  | opportunity (time size : Nat)
  | departure (time : Nat) (packet : QueuedPacket)
  deriving DecidableEq, Repr

/-- `LinkQueue`, for a trace. -/
structure LinkQueue (tr : Trace) (Q : Type) where
  nextDelivery : Nat
  next_lt : nextDelivery < tr.schedule.length
  baseTimestamp : Nat
  packetQueue : Q
  packetInTransit : QueuedPacket
  packetInTransitBytesLeft : Nat
  outputQueue : List Bytes
  finished : Bool
  records : List Record
  asked : List Q

namespace LinkQueue

variable {tr : Trace} {Q : Type}

/-- The constructor, at the clock reading `now`. -/
def initial (tr : Trace) (packetQueue : Q) (now : Nat) : LinkQueue tr Q where
  nextDelivery := 0
  next_lt := tr.length_pos
  baseTimestamp := now
  packetQueue := packetQueue
  packetInTransit := ⟨0, []⟩
  packetInTransitBytesLeft := 0
  outputQueue := []
  finished := false
  records := []
  asked := []

def record (q : LinkQueue tr Q) (r : Record) : LinkQueue tr Q :=
  { q with records := q.records ++ [r] }

/-! ## What the log says -/

/-- The departures in the log: the time and the packet of each. -/
def departed (q : LinkQueue tr Q) : List (Nat × QueuedPacket) :=
  q.records.filterMap fun
    | .departure time packet => some (time, packet)
    | _ => none

/-- The times of the delivery opportunities in the log. -/
def opportunityTimes (q : LinkQueue tr Q) : List Nat :=
  q.records.filterMap fun
    | .opportunity time _ => some time
    | _ => none

/-- The bytes of all arrivals in the log. -/
def arrivedBytes (q : LinkQueue tr Q) : Nat :=
  (q.records.map fun
    | .arrival _ size => size
    | _ => 0).sum

/-- The packet in transit, while there is one. -/
def inTransit (q : LinkQueue tr Q) : List QueuedPacket :=
  if q.packetInTransitBytesLeft = 0 then [] else [q.packetInTransit]

/-! ## Delivery opportunities -/

def nextDeliveryTime (q : LinkQueue tr Q) : Nat :=
  if q.finished then 2 ^ 64 - 1
  else u64 (tr.schedule.get ⟨q.nextDelivery, q.next_lt⟩ + q.baseTimestamp)

def useADeliveryOpportunity (q : LinkQueue tr Q) : LinkQueue tr Q :=
  let q := q.record (.opportunity q.nextDeliveryTime packetSize)
  let next := u32 (q.nextDelivery + 1) % tr.schedule.length
  { q with
    nextDelivery := next
    next_lt := Nat.mod_lt _ tr.length_pos
    baseTimestamp :=
      if next = 0 ∧ tr.repeats = true then u64 (q.baseTimestamp + tr.last) else q.baseTimestamp
    finished := q.finished || (decide (next = 0) && !tr.repeats) }

section

variable [AbstractPacketQueue Q]

/-- Have a packet in transit; `none` when there is none to have. -/
def fetch (world : Nat → Env) (q : LinkQueue tr Q) : Except Fault (Option (LinkQueue tr Q)) :=
  if q.packetInTransitBytesLeft = 0 then
    if AbstractPacketQueue.empty q.packetQueue then .ok none
    else do
      let (p, packetQueue) ← AbstractPacketQueue.dequeue (world q.asked.length) q.packetQueue
      return some { q with
        packetQueue := packetQueue
        packetInTransit := p
        packetInTransitBytesLeft := u32 p.size
        asked := q.asked ++ [q.packetQueue] }
  else .ok (some q)

/-- Send `amount` bytes of the packet in transit. -/
def send (thisDeliveryTime amount : Nat) (q : LinkQueue tr Q) : LinkQueue tr Q :=
  let left := q.packetInTransitBytesLeft - amount
  if left = 0 then
    { q.record (.departure thisDeliveryTime q.packetInTransit) with
      packetInTransitBytesLeft := left
      outputQueue := q.outputQueue ++ [q.packetInTransit.contents] }
  else { q with packetInTransitBytesLeft := left }

/-- One turn of the loop that uses up an opportunity, with the bytes that are
left of the opportunity. -/
def sendTurn (thisDeliveryTime : Nat) (world : Nat → Env) :
    Nat × LinkQueue tr Q → Except Fault ((Nat × LinkQueue tr Q) ⊕ LinkQueue tr Q)
  | (bytesLeft, q) =>
      if bytesLeft = 0 then .ok (.inr q)
      else do
        match ← fetch world q with
        | none => return .inr q
        | some q =>
            assertThat (q.packetInTransit.arrivalTime ≤ thisDeliveryTime)
              "packet_in_transit_.arrival_time <= this_delivery_time"
            assertThat (q.packetInTransitBytesLeft ≤ packetSize)
              "packet_in_transit_bytes_left_ <= PACKET_SIZE"
            assertThat (0 < q.packetInTransitBytesLeft) "packet_in_transit_bytes_left_ > 0"
            assertThat (q.packetInTransitBytesLeft ≤ q.packetInTransit.size)
              "packet_in_transit_bytes_left_ <= packet_in_transit_.contents.size()"
            let amountToSend := min bytesLeft q.packetInTransitBytesLeft
            return .inl (bytesLeft - amountToSend, q.send thisDeliveryTime amountToSend)

/-- Burn a delivery opportunity: the body of the loop in `rationalize`. -/
def deliver (world : Nat → Env) (q : LinkQueue tr Q) : Except Fault (LinkQueue tr Q) :=
  loop .diverges (sendTurn q.nextDeliveryTime world) (packetSize + 1)
    (packetSize, q.useADeliveryOpportunity)

/-- Whether the next opportunity falls due by `now`. -/
def isDue (now : Nat) (q : LinkQueue tr Q) : Bool := decide (q.nextDeliveryTime ≤ now)

/-- The most opportunities that can fall due by `now`. -/
def maxTurns (tr : Trace) (now : Nat) : Nat := tr.schedule.length * (now + 2) + 1

def rationalize (world : Nat → Env) (now : Nat) (q : LinkQueue tr Q) :
    Except Fault (LinkQueue tr Q) :=
  loop .diverges (whileDo (isDue now) (deliver world)) (maxTurns tr now) q

/-! ## The calls of the event loop -/

/-- The part of `read_packet` after `rationalize`. -/
def accept (now : Nat) (contents : Bytes) (env : Env) (q : LinkQueue tr Q) :
    Except Fault (LinkQueue tr Q) := do
  let q := q.record (.arrival now contents.length)
  let bytesBefore ← AbstractPacketQueue.sizeBytes q.packetQueue
  let packetsBefore ← AbstractPacketQueue.sizePackets q.packetQueue
  let packetQueue ← AbstractPacketQueue.enqueue env q.packetQueue ⟨now, contents⟩
  let packets ← AbstractPacketQueue.sizePackets packetQueue
  assertThat (packets ≤ packetsBefore + 1) "packet_queue_->size_packets() <= packets_before + 1"
  let bytes ← AbstractPacketQueue.sizeBytes packetQueue
  assertThat (bytes ≤ bytesBefore + contents.length)
    "packet_queue_->size_bytes() <= bytes_before + contents.size()"
  let missingPackets := packetsBefore + 1 - packets
  let missingBytes := bytesBefore + contents.length - bytes
  let q := { q with packetQueue := packetQueue }
  return if 0 < missingPackets ∨ 0 < missingBytes then
    q.record (.drop now missingPackets missingBytes) else q

def readPacket (world : Nat → Env) (now : Nat) (contents : Bytes) (env : Env)
    (q : LinkQueue tr Q) : Except Fault (LinkQueue tr Q) := do
  if packetSize < contents.length then
    throw (.runtimeError "packet size is greater than maximum")
  let q ← q.rationalize world now
  q.accept now contents env

def waitTime (world : Nat → Env) (now : Nat) (q : LinkQueue tr Q) :
    Except Fault (Nat × LinkQueue tr Q) := do
  let q ← q.rationalize world now
  return (if q.nextDeliveryTime ≤ now then 0 else u32 (q.nextDeliveryTime - now), q)

/-- `fd.write` of everything in the output queue. -/
def writePackets (q : LinkQueue tr Q) : Except Fault (List Bytes × LinkQueue tr Q) :=
  if q.outputQueue.any (·.isEmpty) then .error (.runtimeError "nothing to write")
  else .ok (q.outputQueue, { q with outputQueue := [] })

end

end LinkQueue

/-- A call of the event loop, with the clock reading it makes and, for the
enqueue of `read_packet`, what the discipline reads of the world. -/
inductive LinkCall where
  | readPacket (now : Nat) (contents : Bytes) (env : Env)
  | waitTime (now : Nat)
  | writePackets

namespace LinkQueue

variable {tr : Trace} {Q : Type} [AbstractPacketQueue Q]

/-- One call, with what it writes. -/
def call (world : Nat → Env) (q : LinkQueue tr Q) : LinkCall →
    Except Fault (List Bytes × LinkQueue tr Q)
  | .readPacket now contents env => do
      let q ← q.readPacket world now contents env
      return ([], q)
  | .waitTime now => do
      let (_, q) ← q.waitTime world now
      return ([], q)
  | .writePackets => q.writePackets

/-- A run of calls, with everything it writes. -/
def run (world : Nat → Env) : List LinkCall → LinkQueue tr Q →
    Except Fault (List Bytes × LinkQueue tr Q)
  | [], q => .ok ([], q)
  | c :: calls, q => do
      let (written, q) ← q.call world c
      let (more, q) ← run world calls q
      return (written ++ more, q)

/-! ## What the turns of the two loops do -/

/-- A packet is in transit, with the bytes left of it that the assertions ask for. -/
structure InTransit (thisDeliveryTime : Nat) (q : LinkQueue tr Q) : Prop where
  arrived : q.packetInTransit.arrivalTime ≤ thisDeliveryTime
  le_packetSize : q.packetInTransitBytesLeft ≤ packetSize
  pos : 0 < q.packetInTransitBytesLeft
  le_size : q.packetInTransitBytesLeft ≤ q.packetInTransit.size

theorem fetch_cases {world : Nat → Env} {q : LinkQueue tr Q} {o : Option (LinkQueue tr Q)}
    (h : fetch world q = .ok o) :
    (q.packetInTransitBytesLeft = 0 ∧ AbstractPacketQueue.empty q.packetQueue = true ∧ o = none) ∨
    (0 < q.packetInTransitBytesLeft ∧ o = some q) ∨
    (q.packetInTransitBytesLeft = 0 ∧ ∃ p packetQueue,
      AbstractPacketQueue.dequeue (world q.asked.length) q.packetQueue = .ok (p, packetQueue) ∧
      o = some { q with
        packetQueue := packetQueue
        packetInTransit := p
        packetInTransitBytesLeft := u32 p.size
        asked := q.asked ++ [q.packetQueue] }) := by
  unfold fetch at h
  split at h
  · next hzero =>
      split at h
      · next hempty =>
          cases h
          exact .inl ⟨hzero, hempty, rfl⟩
      · simp only [bind_eq_ok, Prod.exists, pure_eq_ok, Except.ok.injEq] at h
        obtain ⟨p, packetQueue, hd, rfl⟩ := h
        exact .inr (.inr ⟨hzero, p, packetQueue, hd, rfl⟩)
  · next hpos =>
      cases h
      exact .inr (.inl ⟨by omega, rfl⟩)

theorem fetch_frame {world : Nat → Env} {q q₁ : LinkQueue tr Q} (h : fetch world q = .ok (some q₁)) :
    ∃ packetQueue p bytesLeft asked, q₁ = { q with
      packetQueue := packetQueue
      packetInTransit := p
      packetInTransitBytesLeft := bytesLeft
      asked := asked } := by
  rcases fetch_cases h with ⟨-, -, hn⟩ | ⟨-, hs⟩ | ⟨-, p, packetQueue, -, hs⟩
  · cases hn
  · cases hs
    exact ⟨_, _, _, _, rfl⟩
  · cases hs
    exact ⟨_, _, _, _, rfl⟩

/-- A turn leaves when the opportunity is used up or there is nothing to send,
and otherwise sends what fits of the packet in transit. -/
theorem sendTurn_cases {t bytesLeft : Nat} {world : Nat → Env} {q : LinkQueue tr Q}
    {r : (Nat × LinkQueue tr Q) ⊕ LinkQueue tr Q} (h : sendTurn t world (bytesLeft, q) = .ok r) :
    (r = .inr q ∧ (bytesLeft = 0 ∨ fetch world q = .ok none)) ∨
    (0 < bytesLeft ∧ ∃ q₁, fetch world q = .ok (some q₁) ∧ InTransit t q₁ ∧
      r = .inl (bytesLeft - min bytesLeft q₁.packetInTransitBytesLeft,
        q₁.send t (min bytesLeft q₁.packetInTransitBytesLeft))) := by
  rw [sendTurn] at h
  by_cases hzero : bytesLeft = 0
  · rw [if_pos hzero] at h
    cases h
    exact .inl ⟨rfl, .inl hzero⟩
  · rw [if_neg hzero] at h
    rw [bind_eq_ok] at h
    obtain ⟨o, hf, h⟩ := h
    cases o with
    | none =>
        cases h
        exact .inl ⟨rfl, .inr hf⟩
    | some q₁ =>
        simp only [bind_eq_ok, assertThat_eq_ok, decide_eq_true_eq, pure_eq_ok,
          Except.ok.injEq] at h
        obtain ⟨-, harr, -, hsize, -, hp, -, hle, rfl⟩ := h
        exact .inr ⟨by omega, q₁, hf, ⟨harr, hsize, hp, hle⟩, rfl⟩

/-- The two halves of a result of `deliver`: the opportunity is used, and the
loop that sends comes to its end. -/
theorem deliver_exits {world : Nat → Env} {q q' : LinkQueue tr Q} (h : deliver world q = .ok q') :
    Exits (sendTurn q.nextDeliveryTime world) (packetSize, q.useADeliveryOpportunity) (.ok q') :=
  exits_of_loop_ok h

/-- The rule for an opportunity: what using it establishes, and every turn that
sends preserves, holds of the bytes left and the link at the end. -/
theorem deliver_invariant {world : Nat → Env} {q q' : LinkQueue tr Q}
    (h : deliver world q = .ok q') {I : Nat → LinkQueue tr Q → Prop}
    (hstart : I packetSize q.useADeliveryOpportunity)
    (hsend : ∀ bytesLeft s s₁, I bytesLeft s → 0 < bytesLeft → fetch world s = .ok (some s₁) →
      InTransit q.nextDeliveryTime s₁ →
      I (bytesLeft - min bytesLeft s₁.packetInTransitBytesLeft)
        (s₁.send q.nextDeliveryTime (min bytesLeft s₁.packetInTransitBytesLeft))) :
    ∃ bytesLeft, I bytesLeft q' ∧ (bytesLeft = 0 ∨ fetch world q' = .ok none) := by
  refine (deliver_exits h).invariant (I := fun t => I t.1 t.2)
    (Q := fun r => ∃ bytesLeft, I bytesLeft r ∧ (bytesLeft = 0 ∨ fetch world r = .ok none))
    ?_ ?_ hstart q' rfl
  · rintro ⟨bytesLeft, s⟩ s' hI hb
    rcases sendTurn_cases hb with ⟨hr, -⟩ | ⟨hpos, s₁, hf, htransit, hr⟩
    · cases hr
    · cases hr
      exact hsend bytesLeft s s₁ hI hpos hf htransit
  · rintro ⟨bytesLeft, s⟩ r hI hb
    rcases sendTurn_cases hb with ⟨hr, hend⟩ | ⟨-, s₁, -, -, hr⟩
    · cases hr
      exact ⟨bytesLeft, hI, hend⟩
    · cases hr

/-- What `rationalize( now )` leaves, however many opportunities are due by then. -/
def EmulatedTo (world : Nat → Env) (now : Nat) (q q' : LinkQueue tr Q) : Prop :=
  Exits (whileDo (isDue now) (deliver world)) q (.ok q')

theorem emulatedTo_of_rationalize {world : Nat → Env} {now : Nat} {q q' : LinkQueue tr Q}
    (h : rationalize world now q = .ok q') : EmulatedTo world now q q' := exits_of_loop_ok h

/-- The rule for `rationalize`, when it ends; then nothing is due any more. -/
theorem EmulatedTo.invariant {world : Nat → Env} {now : Nat} {q q' : LinkQueue tr Q}
    (h : EmulatedTo world now q q') {I : LinkQueue tr Q → Prop} (hstart : I q)
    (hdeliver : ∀ s s', I s → s.nextDeliveryTime ≤ now → deliver world s = .ok s' → I s') :
    I q' ∧ now < q'.nextDeliveryTime := by
  refine Exits.invariant (I := I) (Q := fun r => I r ∧ now < r.nextDeliveryTime) ?_ ?_ h hstart q' rfl
  · intro s s' hI hb
    obtain ⟨hdue, hb⟩ := whileDo_again.mp hb
    exact hdeliver s s' hI (of_decide_eq_true hdue) hb
  · intro s r hI hb
    obtain ⟨hend, rfl⟩ := whileDo_leave.mp hb
    exact ⟨hI, Nat.lt_of_not_le (of_decide_eq_false hend)⟩

theorem rationalize_invariant {world : Nat → Env} {now : Nat} {q q' : LinkQueue tr Q}
    (h : rationalize world now q = .ok q') {I : LinkQueue tr Q → Prop} (hstart : I q)
    (hdeliver : ∀ s s', I s → s.nextDeliveryTime ≤ now → deliver world s = .ok s' → I s') : I q' :=
  ((emulatedTo_of_rationalize h).invariant hstart hdeliver).1

/-! ## What the calls do -/

theorem readPacket_eq_ok {world : Nat → Env} {now : Nat} {q q' : LinkQueue tr Q} {contents : Bytes}
    {env : Env} :
    q.readPacket world now contents env = .ok q' ↔ contents.length ≤ packetSize ∧
      ∃ q₁, q.rationalize world now = .ok q₁ ∧ q₁.accept now contents env = .ok q' := by
  unfold readPacket
  split
  · next hbig => simp [Nat.not_le.mpr hbig]
  · next hsize => simp [Nat.le_of_not_lt hsize]

/-- What a call that returns has done, and written. -/
inductive Called (world : Nat → Env) (q : LinkQueue tr Q) :
    LinkCall → List Bytes → LinkQueue tr Q → Prop
  | readPacket {now : Nat} {contents : Bytes} {env : Env} {q₁ q' : LinkQueue tr Q} :
      contents.length ≤ packetSize → q.rationalize world now = .ok q₁ →
      q₁.accept now contents env = .ok q' → Called world q (.readPacket now contents env) [] q'
  | waitTime {now : Nat} {q' : LinkQueue tr Q} : q.rationalize world now = .ok q' →
      Called world q (.waitTime now) [] q'
  | writePackets {q' : LinkQueue tr Q} : (∀ b ∈ q.outputQueue, b ≠ []) →
      q' = { q with outputQueue := [] } → Called world q .writePackets q.outputQueue q'

theorem called_of_call {world : Nat → Env} {q q' : LinkQueue tr Q} {c : LinkCall}
    {written : List Bytes} (h : q.call world c = .ok (written, q')) :
    q.Called world c written q' := by
  cases c with
  | readPacket now contents env =>
      simp only [call, bind_eq_ok, pure_eq_ok, Except.ok.injEq, Prod.mk.injEq, readPacket_eq_ok] at h
      obtain ⟨_, ⟨hsize, q₁, hr, ha⟩, rfl, rfl⟩ := h
      exact .readPacket hsize hr ha
  | waitTime now =>
      simp only [call, waitTime, bind_eq_ok, pure_eq_ok, Except.ok.injEq, Prod.mk.injEq] at h
      obtain ⟨_, ⟨q₁, hr, rfl⟩, rfl, rfl⟩ := h
      exact .waitTime hr
  | writePackets =>
      simp only [call, writePackets] at h
      split at h
      · cases h
      · next hany =>
          cases h
          refine .writePackets (fun b hb hnil => ?_) rfl
          exact hany (List.any_eq_true.mpr ⟨b, hb, by rw [hnil]; rfl⟩)

/-- A packet that is accepted has been offered to the queue; the log has its
arrival and, when something was dropped, the drop. -/
theorem accept_eq_ok {now : Nat} {q q' : LinkQueue tr Q} {contents : Bytes} {env : Env}
    (h : q.accept now contents env = .ok q') :
    ∃ packetQueue bytes packets drops,
      AbstractPacketQueue.enqueue env q.packetQueue ⟨now, contents⟩ = .ok packetQueue ∧
      AbstractPacketQueue.sizeBytes packetQueue = .ok bytes ∧
      AbstractPacketQueue.sizePackets packetQueue = .ok packets ∧
      (drops = [] ∨ ∃ t n b, drops = [.drop t n b]) ∧
      q' = { q with
        packetQueue := packetQueue
        records := q.records ++ .arrival now contents.length :: drops } := by
  simp only [accept, bind_eq_ok, assertThat_eq_ok, pure_eq_ok, Except.ok.injEq] at h
  obtain ⟨bytesBefore, -, packetsBefore, -, packetQueue, he, packets, hp, -, -, bytes, hb, -, -,
    rfl⟩ := h
  split
  · exact ⟨packetQueue, bytes, packets,
      [.drop now (packetsBefore + 1 - packets) (bytesBefore + contents.length - bytes)], he, hb, hp,
      .inr ⟨_, _, _, rfl⟩, by simp [record]⟩
  · exact ⟨packetQueue, bytes, packets, [], he, hb, hp, .inl rfl, by simp [record]⟩

theorem run_cons_eq_ok {world : Nat → Env} {c : LinkCall} {calls : List LinkCall}
    {q : LinkQueue tr Q} {out : List Bytes × LinkQueue tr Q} :
    run world (c :: calls) q = .ok out ↔ ∃ r, q.call world c = .ok r ∧
      ∃ r', run world calls r.2 = .ok r' ∧ out = (r.1 ++ r'.1, r'.2) := by
  simp only [run, bind_eq_ok, pure_eq_ok, Except.ok.injEq, @eq_comm _ _ out]

end LinkQueue

end Mahimahi
