import Mahimahi.LinkGraph
import Mahimahi.LinkService
import Mahimahi.QueueCounters

/-!
# The assertions of the link

`rationalize` and `read_packet` assert six things, among them that a packet
being sent has arrived before the opportunity that carries it. The clock is the
wall clock and may be set back, so that cannot come from the order of the clock
readings. It comes from the schedule: a packet is accepted when every
opportunity up to its arrival has been used, so it has arrived before the next
one, and the next one only ever moves ahead (`OnSchedule.next_le`).

`Sendable` is what the packets in the link satisfy with respect to the next
opportunity, and `Operational` adds the place in the schedule. What can still
go wrong in a call is that a counter of the queue overflows, in an assertion of
the queue's own (`accept_cases`); `run_cases` is that for whole runs.
-/

namespace Mahimahi

/-- The assertions in `rationalize` and `read_packet`. -/
def linkAssertions : List String :=
  ["packet_in_transit_.arrival_time <= this_delivery_time",
    "packet_in_transit_bytes_left_ <= PACKET_SIZE",
    "packet_in_transit_bytes_left_ > 0",
    "packet_in_transit_bytes_left_ <= packet_in_transit_.contents.size()",
    "packet_queue_->size_packets() <= packets_before + 1",
    "packet_queue_->size_bytes() <= bytes_before + contents.size()"]

/-- Those of the methods that read the counters of a queue. -/
def counterAssertions : List String :=
  ["queue_size_in_bytes_ >= 0", "queue_size_in_packets_ >= 0"]

/-- The call fails because a counter has become negative. -/
def CounterOverflow {α : Type} (r : Except Fault α) : Prop :=
  ∃ e ∈ counterAssertions, r = .error (.assertion e)

theorem CounterOverflow.bind {α β : Type} {x : Except Fault α} {f : α → Except Fault β}
    (h : CounterOverflow x) : CounterOverflow (x >>= f) := by
  obtain ⟨e, he, rfl⟩ := h
  exact ⟨e, he, rfl⟩

/-! ## Queues without a discipline of their own -/

namespace CountedQueue

variable {W : Arith} {q : CountedQueue W} {p : QueuedPacket}

theorem push_sizePackets (hq : W.Fits q.internalQueue.length) :
    (q.push p).sizePackets = .ok (q.internalQueue.length + 1) ∨
      CounterOverflow (q.push p).sizePackets := by
  have hone : W.Fits 1 := by cases W <;> simp [Arith.Fits]
  have hlength : (q.push p).internalQueue.length = q.internalQueue.length + 1 := by simp
  by_cases hfits : W.Fits (q.internalQueue.length + 1)
  · left
    rw [sizePackets_of_fits (by rwa [hlength]), hlength]
  · right
    have hneg : ¬ 0 ≤ (q.push p).queueSizeInPackets := by
      rw [(q.push p).packets_eq, hlength, Arith.int_nonneg_iff hq hone]
      exact hfits
    exact ⟨"queue_size_in_packets_ >= 0", by simp [counterAssertions],
      by simp [sizePackets, assertThat, hneg]⟩

theorem push_sizeBytes (hq : W.Fits (bytesOf q.internalQueue)) (hp : W.Fits p.size) :
    (q.push p).sizeBytes = .ok (bytesOf q.internalQueue + p.size) ∨
      CounterOverflow (q.push p).sizeBytes := by
  have hbytes : bytesOf (q.push p).internalQueue = bytesOf q.internalQueue + p.size := by simp
  by_cases hfits : W.Fits (bytesOf q.internalQueue + p.size)
  · left
    rw [sizeBytes_of_fits (by rwa [hbytes]), hbytes]
  · right
    have hneg : ¬ 0 ≤ (q.push p).queueSizeInBytes := by
      rw [(q.push p).bytes_eq, hbytes, Arith.int_nonneg_iff hq hp]
      exact hfits
    exact ⟨"queue_size_in_bytes_ >= 0", by simp [counterAssertions],
      by simp [sizeBytes, assertThat, hneg]⟩

end CountedQueue

namespace PacketQueue

variable {W : Arith} {q q' : PacketQueue W} {p : QueuedPacket}

/-- An infinite or a drop-tail queue. -/
def Plain : PacketQueue W → Prop
  | infinite _ => True
  | droptail _ => True
  | _ => False

/-- `assert( good() )` after `accept`: the limits hold, or a counter has overflowed. -/
theorem assertGood_accept {q : DroppingPacketQueue W} (hq : q.Valid) (hp : p.Sendable)
    (hgood : q.goodWithPacket p = .ok true) :
    (q.accept p).assertGood = .ok () ∨ CounterOverflow (q.accept p).assertGood := by
  have hsize : W.Fits p.size := LinkQueue.fits_of_le_packetSize hp.2
  rcases CountedQueue.push_sizeBytes hq.fits.1 hsize with hbytes | hover
  · rcases CountedQueue.push_sizePackets (p := p) hq.fits.2 with hpackets | hover
    · left
      have hfits : (q.accept p).Fits := CountedQueue.push_fits hq.fits hsize hbytes hpackets
      obtain ⟨b, hb, hvalid⟩ := DroppingPacketQueue.offer_valid hq hfits
      obtain rfl : b = true := by
        rw [hgood] at hb
        exact (Except.ok.inj hb).symm
      exact DroppingPacketQueue.assertGood_of_valid (hvalid rfl)
    · right
      have hread : (q.accept p).sizeBytes = .ok (bytesOf q.store.internalQueue + p.size) := hbytes
      rw [DroppingPacketQueue.assertGood, DroppingPacketQueue.good, hread, ok_bind]
      exact .bind (.bind hover)
  · right
    exact .bind (.bind hover)

theorem enqueue_plain (env : Env) (hplain : q.Plain) (hq : q.Valid) (hp : p.Sendable) :
    (∃ q', q.enqueue env p = .ok q' ∧ q'.Plain ∧
      (q' = q ∨ q'.store = q.store.push p)) ∨ CounterOverflow (q.enqueue env p) := by
  cases q with
  | infinite q => exact .inl ⟨.infinite (q.enqueue p), rfl, trivial, .inr rfl⟩
  | droptail q =>
      obtain ⟨b, hb⟩ : ∃ b, q.base.goodWithPacket p = .ok b := by
        simp [DroppingPacketQueue.goodWithPacket, DroppingPacketQueue.sizeBytes_of_fits hq.fits,
          DroppingPacketQueue.sizePackets_of_fits hq.fits]
      have henq : PacketQueue.enqueue env (.droptail q) p = .droptail <$> q.enqueue p := rfl
      cases b with
      | false =>
          have hok := DroppingPacketQueue.assertGood_of_valid hq
          exact .inl ⟨.droptail q, by simp [henq, DropTailPacketQueue.enqueue, hb, hok], trivial,
            .inl rfl⟩
      | true =>
          rcases assertGood_accept hq hp hb with hok | ⟨e, he, herr⟩
          · exact .inl ⟨.droptail ⟨q.base.accept p⟩,
              by simp [henq, DropTailPacketQueue.enqueue, hb, hok], trivial, .inr rfl⟩
          · refine .inr ⟨e, he, ?_⟩
            rw [henq, DropTailPacketQueue.enqueue, hb]
            simp only [ok_bind, if_true, herr, error_bind]
            rfl
  | drophead | codel | pie => exact hplain.elim

theorem dequeue_plain (env : Env) (hplain : q.Plain) (hq : q.Valid) {ps : List QueuedPacket}
    (h : q.contents = p :: ps) :
    ∃ q', q.dequeue env = .ok (p, q') ∧ q'.Plain ∧ q'.Valid ∧ q'.contents = ps := by
  cases q with
  | infinite q =>
      obtain ⟨r, hd, -, hps⟩ := InfinitePacketQueue.givesFront.dequeue env (q := q) trivial h
      have hcons := InfinitePacketQueue.dequeue_eq_ok.mp hd
      refine ⟨.infinite r, ?_, trivial, CountedQueue.Fits.of_cons hcons hq, hps⟩
      show Prod.map id PacketQueue.infinite <$> AbstractPacketQueue.dequeue env q = _
      rw [hd]
      rfl
  | droptail q =>
      obtain ⟨base, hd, hps, -, hvalid⟩ := DroppingPacketQueue.dequeue_valid (q := q.base) h hq
      refine ⟨.droptail ⟨base⟩, ?_, trivial, hvalid, hps⟩
      show Prod.map id PacketQueue.droptail <$> q.dequeue = _
      simp [DropTailPacketQueue.dequeue, hd]
  | drophead | codel | pie => exact hplain.elim

def givesFront : GivesFront (PacketQueue W) where
  contents := contents
  Inv q := q.Plain ∧ q.Valid
  empty_iff := CountedQueue.empty_eq_true
  dequeue env _ _ _ h hps := by
    obtain ⟨q', hd, hplain, hvalid, hrest⟩ := dequeue_plain env h.1 h.2 hps
    exact ⟨q', hd, ⟨hplain, hvalid⟩, hrest⟩

end PacketQueue

/-! ## The link -/

namespace LinkQueue

variable {tr : Trace} {W : Arith} {world : Nat → Env} {start T now : Nat} {contents : Bytes}
  {q q' : LinkQueue tr (PacketQueue W)}

/-- Between two calls: the link is on its schedule, and its packets are ready
for the next opportunity. -/
structure Operational (start T : Nat) (q : LinkQueue tr (PacketQueue W)) : Prop where
  schedule : q.OnSchedule start T
  loaded : q.Loaded PacketQueue.givesFront q.nextDeliveryTime

/-- A packet that was sent and has arrived before the next opportunity can be in
the queue as well. -/
theorem Operational.replace {packetQueue : PacketQueue W} {records : List Record}
    (h : Operational start T q) (hnow : now < q.nextDeliveryTime)
    (hp : (⟨now, contents⟩ : QueuedPacket).Sendable) (hplain : packetQueue.Plain)
    (hvalid : packetQueue.Valid)
    (hcases : packetQueue = q.packetQueue ∨
      packetQueue.store = q.packetQueue.store.push ⟨now, contents⟩) :
    Operational start T { q with packetQueue := packetQueue, records := records } := by
  refine ⟨h.schedule, ⟨⟨hplain, hvalid⟩, fun p hmem => ?_, h.loaded.left_le, h.loaded.writable⟩⟩
  rcases List.mem_append.mp hmem with hmem | hmem
  · exact h.loaded.packets p (List.mem_append_left _ hmem)
  · rcases hcases with rfl | hpush
    · exact h.loaded.packets p (List.mem_append_right _ hmem)
    · have hcontents : packetQueue.contents = q.packetQueue.contents ++ [⟨now, contents⟩] := by
        rw [PacketQueue.contents, hpush]
        rfl
      have hmem : p ∈ packetQueue.contents := hmem
      rw [hcontents] at hmem
      rcases List.mem_append.mp hmem with hmem | hmem
      · exact h.loaded.packets p (List.mem_append_right _ hmem)
      · obtain rfl := List.mem_singleton.mp hmem
        exact ⟨Nat.le_of_lt hnow, hp⟩

/-- A packet that is accepted has arrived before the next opportunity, so it is
as good as those before it. Otherwise the queue cannot count it. -/
theorem Operational.accept (env : Env) (h : Operational start T q) (hnow : now < q.nextDeliveryTime)
    (hp : (⟨now, contents⟩ : QueuedPacket).Sendable) :
    (∃ q', q.accept now contents env = .ok q' ∧ Operational start T q') ∨
      CounterOverflow (q.accept now contents env) := by
  obtain ⟨hplain, hvalid⟩ := h.loaded.inv
  have hsize : W.Fits contents.length := fits_of_le_packetSize hp.2
  have hb : AbstractPacketQueue.sizeBytes q.packetQueue = .ok (bytesOf q.packetQueue.contents) :=
    CountedQueue.sizeBytes_of_fits hvalid.fits.1
  have hn : AbstractPacketQueue.sizePackets q.packetQueue = .ok q.packetQueue.contents.length :=
    CountedQueue.sizePackets_of_fits hvalid.fits.2
  rcases PacketQueue.enqueue_plain env hplain hvalid hp with ⟨packetQueue, he, hplain', hcases⟩ | hover
  · have he' : AbstractPacketQueue.enqueue env q.packetQueue ⟨now, contents⟩ = .ok packetQueue := he
    rcases hcases with rfl | hpush
    · -- refused: the sizes are those of before
      left
      obtain ⟨q', ha⟩ : ∃ q', q.accept now contents env = .ok q' := by
        simp [LinkQueue.accept, record, hb, hn, he']
      obtain ⟨packetQueue, -, -, drops, he'', -, -, -, rfl⟩ := accept_eq_ok ha
      cases he'.symm.trans he''
      exact ⟨_, ha, h.replace hnow hp hplain hvalid (.inl rfl)⟩
    · have hpackets := CountedQueue.push_sizePackets (p := ⟨now, contents⟩) hvalid.fits.2
      have hbytes := CountedQueue.push_sizeBytes (p := ⟨now, contents⟩) hvalid.fits.1 hsize
      rw [← hpush] at hpackets hbytes
      rcases hpackets with hpackets | hover
      · have hn' : AbstractPacketQueue.sizePackets packetQueue
            = .ok (q.packetQueue.contents.length + 1) := hpackets
        rcases hbytes with hbytes | hover
        · left
          have hb' : AbstractPacketQueue.sizeBytes packetQueue
              = .ok (bytesOf q.packetQueue.contents + contents.length) := hbytes
          obtain ⟨q', ha⟩ : ∃ q', q.accept now contents env = .ok q' := by
            simp [LinkQueue.accept, record, hb, hn, he', hn', hb']
          obtain ⟨packetQueue', bytes, packets, drops, he'', hbytes', hpackets', -, rfl⟩ :=
            accept_eq_ok ha
          cases he'.symm.trans he''
          have hvalid' := PacketQueue.enqueue_valid (p := ⟨now, contents⟩) hvalid hsize he hbytes'
            hpackets'
          exact ⟨_, ha, h.replace hnow hp hplain' hvalid' (.inr hpush)⟩
        · right
          have hover : CounterOverflow (AbstractPacketQueue.sizeBytes packetQueue) := hover
          simp only [LinkQueue.accept, record, hb, hn, he', hn', ok_bind, Nat.le_refl, decide_true,
            assertThat_true]
          exact .bind hover
      · right
        have hover : CounterOverflow (AbstractPacketQueue.sizePackets packetQueue) := hover
        simp only [LinkQueue.accept, record, hb, hn, he', ok_bind]
        exact .bind hover
  · right
    have hover : CounterOverflow (AbstractPacketQueue.enqueue env q.packetQueue ⟨now, contents⟩) :=
      hover
    simp only [LinkQueue.accept, record, hb, hn, ok_bind]
    exact .bind hover

theorem Operational.rationalize (world : Nat → Env) (hwrap : tr.NoWraparound start T) (hnow : now ≤ T)
    (h : Operational start T q) : ∃ q', q.rationalize world now = .ok q' ∧ Operational start T q' ∧
      now < q'.nextDeliveryTime := by
  obtain ⟨q', hr, hschedule, hloaded, hlt, -⟩ := h.loaded.rationalize world hwrap hnow h.schedule
  exact ⟨q', hr, ⟨hschedule, hloaded⟩, hlt⟩

/-- A run comes to its end, or to a counter that overflows. -/
theorem Operational.run (world : Nat → Env) (hwrap : tr.NoWraparound start T) :
    ∀ (calls : List LinkCall) {q : LinkQueue tr (PacketQueue W)}, Operational start T q →
    (∀ t ∈ clockReadings calls, t ≤ T) → (∀ p ∈ offeredPackets calls, p.Sendable) →
    (∃ written q', LinkQueue.run world calls q = .ok (written, q') ∧ Operational start T q') ∨
      CounterOverflow (LinkQueue.run world calls q)
  | [], q, h, _, _ => .inl ⟨[], q, rfl, h⟩
  | .readPacket now contents env :: calls, q, h, hclock, hsizes => by
      have hp := hsizes ⟨now, contents⟩ List.mem_cons_self
      obtain ⟨q₁, hr, h₁, hnow⟩ := h.rationalize world hwrap (hclock now List.mem_cons_self)
      have hread : q.readPacket world now contents env = q₁.accept now contents env := by
        have hsize : ¬ packetSize < contents.length := Nat.not_lt.mpr hp.2
        simp [readPacket, hsize, hr]
      rcases h₁.accept env hnow hp with ⟨q₂, ha, h₂⟩ | hover
      · rcases Operational.run world hwrap calls h₂ (fun t ht => hclock t (List.mem_cons_of_mem _ ht))
          (fun p hp => hsizes p (List.mem_cons_of_mem _ hp)) with ⟨written, q', hrun, h'⟩ | hover
        · exact .inl ⟨written, q', by simp [LinkQueue.run, call, hread, ha, hrun], h'⟩
        · right
          simp only [LinkQueue.run, call, hread, ha, ok_bind, pure_eq_ok]
          exact .bind hover
      · right
        simp only [LinkQueue.run, call, hread]
        exact .bind (.bind hover)
  | .waitTime now :: calls, q, h, hclock, hsizes => by
      obtain ⟨q₁, hr, h₁, -⟩ := h.rationalize world hwrap (hclock now List.mem_cons_self)
      rcases Operational.run world hwrap calls h₁ (fun t ht => hclock t (List.mem_cons_of_mem _ ht))
        hsizes with ⟨written, q', hrun, h'⟩ | hover
      · exact .inl ⟨written, q', by simp [LinkQueue.run, call, waitTime, hr, hrun], h'⟩
      · right
        simp only [LinkQueue.run, call, waitTime, hr, ok_bind, pure_eq_ok]
        exact .bind hover
  | .writePackets :: calls, q, h, hclock, hsizes => by
      have hany : q.outputQueue.any (·.isEmpty) = false := by simpa using h.loaded.writable
      have h₁ : Operational start T { q with outputQueue := [] } :=
        ⟨h.schedule, h.loaded.inv, h.loaded.packets, h.loaded.left_le, by simp⟩
      rcases Operational.run world hwrap calls h₁ hclock hsizes with ⟨written, q', hrun, h'⟩ | hover
      · exact .inl ⟨q.outputQueue ++ written, q', by simp [LinkQueue.run, call, writePackets, hany, hrun],
          h'⟩
      · right
        simp only [LinkQueue.run, call, writePackets, hany, Bool.false_eq_true, if_false, ok_bind]
        exact .bind hover

theorem operational_initial {t : QueueType} (ht : t = .infinite ∨ ∃ l, t = .droptail l)
    (tr : Trace) (start T : Nat) :
    Operational start T (initial tr (getPacketQueue W start t) start) := by
  have hcontents : (getPacketQueue W start t).contents = [] :=
    PacketQueue.contents_getPacketQueue start t
  have hplain : (getPacketQueue W start t).Plain := by
    rcases ht with rfl | ⟨l, rfl⟩
    · trivial
    · trivial
  refine ⟨onSchedule_initial tr _ start T,
    ⟨⟨hplain, PacketQueue.valid_getPacketQueue start t⟩, fun p hp => ?_, Nat.le_refl _,
      by simp [initial]⟩⟩
  have hp : p ∈ ([] : List QueuedPacket) ++ (getPacketQueue W start t).contents := hp
  rw [hcontents] at hp
  cases hp

/-! ### Departures -/

/-- The delay that the log gives for a packet is not negative. -/
def DelaysCount (q : LinkQueue tr (PacketQueue W)) : Prop := ∀ d ∈ q.departed, d.2.arrivalTime ≤ d.1

theorem DelaysCount.deliver (h : q.DelaysCount) (hd : LinkQueue.deliver world q = .ok q') :
    q'.DelaysCount := by
  obtain ⟨-, hI, -⟩ := deliver_invariant hd (I := fun _ s => s.DelaysCount)
    (by simpa [DelaysCount, departed, useADeliveryOpportunity, record] using h)
    fun _ s s₁ hI _ hf ht => by
      have hs₁ : s₁.DelaysCount := by
        obtain ⟨_, _, _, _, rfl⟩ := fetch_frame hf
        exact hI
      simp only [send]
      split
      · intro d hd
        simp only [departed, record, List.filterMap_append] at hd
        rcases List.mem_append.mp hd with hd | hd
        · exact hs₁ d hd
        · simp only [List.filterMap_cons, List.filterMap_nil, List.mem_singleton] at hd
          rw [hd]
          exact ht.arrived
      · exact hs₁
  exact hI

theorem DelaysCount.rationalize (h : q.DelaysCount)
    (hr : LinkQueue.rationalize world now q = .ok q') : q'.DelaysCount :=
  rationalize_invariant hr h fun _ _ hI _ hd => hI.deliver hd

theorem DelaysCount.accept {env : Env} (h : q.DelaysCount)
    (ha : LinkQueue.accept now contents env q = .ok q') : q'.DelaysCount := by
  obtain ⟨_, _, _, drops, -, -, -, hdrops, rfl⟩ := accept_eq_ok ha
  rcases hdrops with rfl | ⟨t, n, b, rfl⟩ <;> simpa [DelaysCount, departed] using h

theorem DelaysCount.run : ∀ {calls : List LinkCall} {q q' : LinkQueue tr (PacketQueue W)}
    {written : List Bytes}, q.DelaysCount → LinkQueue.run world calls q = .ok (written, q') →
    q'.DelaysCount
  | [], _, _, _, h, hrun => by
      cases hrun
      exact h
  | c :: calls, q, q', _, h, hrun => by
      obtain ⟨⟨w, q₁⟩, hc, ⟨w', q₂⟩, hrest, hout⟩ := run_cons_eq_ok.mp hrun
      cases hout
      refine DelaysCount.run ?_ hrest
      cases called_of_call hc with
      | readPacket _ hr ha => exact (h.rationalize hr).accept ha
      | waitTime hr => exact h.rationalize hr
      | writePackets _ heq =>
          subst heq
          exact h

/-! ### All runs -/

/-- **The assertions of the link hold.** With an infinite or a drop-tail queue,
as long as no time leaves `uint64_t`, whatever the clock does: no run of calls
ends in one of the six assertions. It returns, or a counter of the queue has
overflowed; and when it returns, a packet that is being sent meets what the
assertions ask for at the next opportunity, and no packet has departed before it
arrived. -/
theorem link_assertions_hold (W : Arith) (t : QueueType)
    (ht : t = .infinite ∨ ∃ l, t = .droptail l) (tr : Trace) (start T : Nat)
    (hwrap : tr.NoWraparound start T) (world : Nat → Env) (calls : List LinkCall)
    (hclock : ∀ now ∈ clockReadings calls, now ≤ T)
    (hsizes : ∀ p ∈ offeredPackets calls, 0 < p.size ∧ p.size ≤ packetSize) :
    let q₀ := initial tr (getPacketQueue W start t) start
    (∀ e ∈ linkAssertions, LinkQueue.run world calls q₀ ≠ .error (.assertion e)) ∧
    ((∃ written q, LinkQueue.run world calls q₀ = .ok (written, q)) ∨
      CounterOverflow (LinkQueue.run world calls q₀)) ∧
    ∀ written q, LinkQueue.run world calls q₀ = .ok (written, q) →
      (0 < q.packetInTransitBytesLeft → InTransit q.nextDeliveryTime q) ∧ q.DelaysCount := by
  intro q₀
  have hcases := (operational_initial (W := W) ht tr start T).run world hwrap calls hclock hsizes
  refine ⟨fun e he herr => ?_, ?_, fun written q hrun => ⟨fun hpos => ?_, ?_⟩⟩
  · rcases hcases with ⟨_, _, hrun, -⟩ | ⟨e', he', herr'⟩
    · rw [herr] at hrun
      cases hrun
    · rw [herr] at herr'
      cases herr'
      simp only [counterAssertions, linkAssertions, List.mem_cons, List.not_mem_nil, or_false] at he he'
      rcases he' with rfl | rfl <;> simp at he
  · rcases hcases with ⟨written, q, hrun, -⟩ | hover
    · exact .inl ⟨written, q, hrun⟩
    · exact .inr hover
  · rcases hcases with ⟨written', q', hrun', hq⟩ | ⟨e, -, herr⟩
    · cases hrun.symm.trans hrun'
      have hmem : q.packetInTransit ∈ q.inTransit ++ q.packetQueue.contents := by
        rw [inTransit_of_pos hpos]
        exact List.mem_append_left _ (List.mem_singleton_self _)
      obtain ⟨harr, -, hsize⟩ := hq.loaded.packets _ hmem
      exact ⟨harr, Nat.le_trans hq.loaded.left_le hsize, hpos, hq.loaded.left_le⟩
    · cases hrun.symm.trans herr
  · exact DelaysCount.run (q := q₀) (by simp [DelaysCount, departed, q₀, initial]) hrun

/-- The clock goes from 5 back to 3 and 2. -/
theorem link_assertions_hold_back :
    ∃ written q, LinkQueue.run (fun _ => ⟨0, 0, 0⟩)
        [.readPacket 5 [1, 2, 3] ⟨0, 0, 0⟩, .waitTime 3, .readPacket 2 [4] ⟨0, 0, 0⟩, .waitTime 6]
        (initial everyMs (getPacketQueue .machine 4 (.droptail ⟨10, 0⟩)) 4) = .ok (written, q) ∧
      (0 < q.packetInTransitBytesLeft → InTransit q.nextDeliveryTime q) ∧ q.DelaysCount := by
  have hwrap : everyMs.NoWraparound 4 10 := .of_lt (by decide) (by decide)
  obtain ⟨-, -, hstate⟩ := link_assertions_hold .machine (.droptail ⟨10, 0⟩) (.inr ⟨_, rfl⟩)
    everyMs 4 10 hwrap (fun _ => ⟨0, 0, 0⟩)
    [.readPacket 5 [1, 2, 3] ⟨0, 0, 0⟩, .waitTime 3, .readPacket 2 [4] ⟨0, 0, 0⟩, .waitTime 6]
    (by decide) (by decide)
  exact ⟨_, _, rfl, hstate _ _ rfl⟩

end LinkQueue

end Mahimahi
