import Mahimahi.LinkLog
import Mahimahi.BoundedQueue
import Mahimahi.ThroughputGraph

/-!
# What the throughput graph makes of a log

Of the lines that a run of the link writes, `mm-throughput-graph` can use
all but those for drops: a delay never reaches back behind the base
timestamp, since a packet that departs has arrived at a clock reading after
that of the constructor (`Dated`). So the log of a run can be read exactly
as long as every `enqueue` takes the packet that it is given and keeps those
that it has (`PacketQueue.Takes`).
-/

namespace Mahimahi

/-! ## Packets that are taken -/

namespace PacketQueue

variable {W : Arith}

/-- The discipline takes the packet, and drops none that it has for it. -/
def Takes (env : Env) (p : QueuedPacket) : PacketQueue W → Prop
  | infinite _ => True
  | droptail q => q.base.goodWithPacket p = .ok true
  | drophead q => (q.base.accept p).good = .ok true
  | codel q => q.base.goodWithPacket p = .ok true
  | pie q => ∃ q', q.calculateDropProb env.now = .ok q' ∧ q'.base.goodWithPacket p = .ok true ∧
      q'.dropEarly env.draw = .ok false

theorem drophead_enqueue_cases {q q' : DropHeadPacketQueue W} {p : QueuedPacket} (hq : q.base.Valid)
    (hp : W.Fits p.size) (h : q.enqueue p = .ok q') :
    ((q.base.accept p).good = .ok true ∧ q'.base.internalQueue = q.base.internalQueue ++ [p]) ∨
      ((q.base.accept p).good ≠ .ok true ∧
        q'.base.internalQueue = (q.base.internalQueue ++ [p]).tail) := by
  by_cases hfits : (q.base.accept p).Fits
  · have hgood := DroppingPacketQueue.good_of_fits hfits
    by_cases hall : q.base.limits.Holds (q.base.internalQueue ++ [p])
    · rw [DropHeadPacketQueue.enqueue_of_holds hfits hall] at h
      cases h
      refine .inl ⟨?_, rfl⟩
      rw [hgood]
      exact congrArg _ hall
    · have hbad : (q.base.accept p).good ≠ .ok true := by
        rw [hgood]
        exact fun heq => hall (Except.ok.inj heq)
      by_cases ht : q.base.limits.Holds (q.base.internalQueue ++ [p]).tail
      · obtain ⟨base, he, hps, -, -⟩ := DropHeadPacketQueue.enqueue_of_tail hfits hall ht
        rw [he] at h
        cases h
        exact .inr ⟨hbad, hps⟩
      · rw [DropHeadPacketQueue.enqueue_aborts hfits hall ht] at h
        cases h
  · obtain ⟨e, he⟩ := DropHeadPacketQueue.enqueue_overflow hq.fits hp hfits
    rw [he] at h
    cases h

theorem pie_enqueue_cases {env : Env} {q q' : PIEPacketQueue W} {p : QueuedPacket}
    (h : q.enqueue env p = .ok q') :
    (Takes env p (.pie q) ∧ q'.base.internalQueue = q.base.internalQueue ++ [p]) ∨
      (¬ Takes env p (.pie q) ∧ q'.base.internalQueue = q.base.internalQueue) := by
  simp only [PIEPacketQueue.enqueue, bind_eq_ok] at h
  obtain ⟨q₁, hcalc, ho⟩ := h
  have hbase := PIEPacketQueue.calculateDropProb_base hcalc
  have htakes : Takes env p (.pie q) ↔
      q₁.base.goodWithPacket p = .ok true ∧ q₁.dropEarly env.draw = .ok false := by
    simp [Takes, hcalc]
  rw [htakes]
  simp only [PIEPacketQueue.offer, bind_eq_ok] at ho
  obtain ⟨b, hb, ho⟩ := ho
  cases b with
  | false =>
      cases ho
      exact .inr ⟨by simp [hb], by rw [hbase]⟩
  | true =>
      simp only [if_true, bind_eq_ok, pure_eq_ok, Except.ok.injEq] at ho
      obtain ⟨d, hd, -, -, rfl⟩ := ho
      cases d with
      | true => exact .inr ⟨by simp [hd], by simp [hbase]⟩
      | false => exact .inl ⟨⟨hb, hd⟩, by simp [hbase]⟩

/-- An `enqueue` that returns has taken the packet, or the queue is not longer
than before. -/
theorem enqueue_takes {env : Env} {q q' : PacketQueue W} {p : QueuedPacket} (hq : q.Valid)
    (hp : W.Fits p.size) (h : q.enqueue env p = .ok q') :
    (Takes env p q ∧ q'.contents = q.contents ++ [p]) ∨
      (¬ Takes env p q ∧ q'.contents.length = q.contents.length ∧
        q'.contents.Sublist (q.contents ++ [p])) := by
  cases q with
  | infinite q =>
      cases h
      exact .inl ⟨trivial, rfl⟩
  | droptail q =>
      obtain ⟨r, hr, rfl⟩ := map_eq_ok.mp h
      simp only [AbstractPacketQueue.enqueue, DropTailPacketQueue.enqueue, bind_eq_ok, pure_eq_ok,
        Except.ok.injEq] at hr
      obtain ⟨b, hb, -, -, rfl⟩ := hr
      cases b with
      | true => exact .inl ⟨hb, rfl⟩
      | false => exact .inr ⟨by simp [Takes, hb], rfl, List.sublist_append_left _ _⟩
  | drophead q =>
      obtain ⟨r, hr, rfl⟩ := map_eq_ok.mp h
      rcases drophead_enqueue_cases hq hp hr with ⟨hgood, hps⟩ | ⟨hbad, hps⟩
      · exact .inl ⟨hgood, hps⟩
      · have hcontents : (PacketQueue.drophead r).contents
            = ((PacketQueue.drophead q).contents ++ [p]).tail := hps
        refine .inr ⟨hbad, by simp [hcontents], ?_⟩
        rw [hcontents]
        exact List.tail_sublist _
  | codel q =>
      obtain ⟨r, hr, rfl⟩ := map_eq_ok.mp h
      simp only [AbstractPacketQueue.enqueue, CODELPacketQueue.enqueue, bind_eq_ok, pure_eq_ok,
        Except.ok.injEq] at hr
      obtain ⟨b, hb, -, -, rfl⟩ := hr
      cases b with
      | true => exact .inl ⟨hb, rfl⟩
      | false => exact .inr ⟨by simp [Takes, hb], rfl, List.sublist_append_left _ _⟩
  | pie q =>
      obtain ⟨r, hr, rfl⟩ := map_eq_ok.mp h
      rcases pie_enqueue_cases hr with ⟨htakes, hps⟩ | ⟨hnot, hps⟩
      · exact .inl ⟨htakes, hps⟩
      · have hcontents : (PacketQueue.pie r).contents = (PacketQueue.pie q).contents := hps
        refine .inr ⟨hnot, by rw [hcontents], ?_⟩
        rw [hcontents]
        exact List.sublist_append_left _ _

end PacketQueue

/-! ## The link and its log -/

namespace LinkQueue

variable {tr : Trace} {W : Arith}

/-- Every packet has arrived at a clock reading of this link, and the log says
so of those that have departed. -/
structure Dated (start : Nat) (q : LinkQueue tr (PacketQueue W)) : Prop where
  valid : q.packetQueue.Valid
  queued : ∀ p ∈ q.packetQueue.contents, start ≤ p.arrivalTime
  inTransit : 0 < q.packetInTransitBytesLeft → start ≤ q.packetInTransit.arrivalTime
  logged : ∀ r ∈ q.records, r.Timely start

/-- The lines for drops. -/
def drops (q : LinkQueue tr (PacketQueue W)) : List Record := q.records.filter Record.isDrop

section

variable {world : Nat → Env} {start : Nat} {q q' : LinkQueue tr (PacketQueue W)}

theorem Dated.fetch (h : Dated start q) (hf : LinkQueue.fetch world q = .ok (some q')) :
    Dated start q' ∧ q'.records = q.records := by
  rcases fetch_cases hf with ⟨-, -, hn⟩ | ⟨-, hs⟩ | ⟨-, p, packetQueue, hd, hs⟩
  · cases hn
  · cases hs
    exact ⟨h, rfl⟩
  · cases hs
    obtain ⟨hvalid, lost, hcons, -⟩ := PacketQueue.dequeue_spec h.valid hd
    refine ⟨⟨hvalid, fun p' hp' => h.queued p' ?_, fun _ => h.queued p ?_, h.logged⟩, rfl⟩
    · rw [hcons]
      simp [hp']
    · rw [hcons]
      simp

theorem Dated.send (h : Dated start q) {t : Nat} (ht : InTransit t q) (amount : Nat) :
    Dated start (q.send t amount) ∧ (q.send t amount).drops = q.drops := by
  have hdated := h.inTransit ht.pos
  simp only [LinkQueue.send]
  split
  · refine ⟨⟨h.valid, h.queued, fun _ => hdated, fun r hr => ?_⟩, ?_⟩
    · rcases List.mem_append.mp hr with hr | hr
      · exact h.logged r hr
      · obtain rfl := List.mem_singleton.mp hr
        exact ⟨hdated, ht.arrived⟩
    · simp [drops, record, Record.isDrop]
  · exact ⟨⟨h.valid, h.queued, fun _ => hdated, h.logged⟩, rfl⟩

theorem Dated.use (h : Dated start q) :
    Dated start q.useADeliveryOpportunity ∧ q.useADeliveryOpportunity.drops = q.drops := by
  refine ⟨⟨h.valid, h.queued, h.inTransit, fun r hr => ?_⟩, ?_⟩
  · rcases List.mem_append.mp hr with hr | hr
    · exact h.logged r hr
    · obtain rfl := List.mem_singleton.mp hr
      trivial
  · simp [drops, useADeliveryOpportunity, record, Record.isDrop]

theorem Dated.deliver (h : Dated start q) (hd : LinkQueue.deliver world q = .ok q') :
    Dated start q' ∧ q'.drops = q.drops := by
  obtain ⟨-, hI, -⟩ := deliver_invariant hd (I := fun _ s => Dated start s ∧ s.drops = q.drops) h.use
    fun _ s s₁ hI _ hf ht => by
      obtain ⟨hdated, hrecords⟩ := hI.1.fetch hf
      obtain ⟨hsent, hdrops⟩ := hdated.send ht _
      refine ⟨hsent, hdrops.trans ?_⟩
      rw [drops, hrecords]
      exact hI.2
  exact hI

theorem Dated.rationalize {now : Nat} (h : Dated start q)
    (hr : LinkQueue.rationalize world now q = .ok q') : Dated start q' ∧ q'.drops = q.drops :=
  rationalize_invariant hr (I := fun s => Dated start s ∧ s.drops = q.drops) ⟨h, rfl⟩
    fun _ _ hI _ hd => by
      obtain ⟨hdated, hdrops⟩ := hI.1.deliver hd
      exact ⟨hdated, hdrops.trans hI.2⟩

/-- A line for a drop is written unless the packet is taken. -/
theorem Dated.accept {now : Nat} {contents : Bytes} {env : Env} (h : Dated start q)
    (hnow : start ≤ now) (hsize : W.Fits contents.length)
    (ha : LinkQueue.accept now contents env q = .ok q') :
    Dated start q' ∧ (q'.drops = [] ↔ q.drops = [] ∧
      PacketQueue.Takes env ⟨now, contents⟩ q.packetQueue) := by
  obtain ⟨packetQueue, he, hvalid, -, -, rfl⟩ := LinkQueue.accept_of_valid h.valid hsize ha
  have harrival : ∀ p ∈ q.packetQueue.contents ++ [⟨now, contents⟩], start ≤ p.arrivalTime := by
    intro p hp
    rcases List.mem_append.mp hp with hp | hp
    · exact h.queued p hp
    · obtain rfl := List.mem_singleton.mp hp
      exact hnow
  have hlogged : ∀ r ∈ q.records ++ [.arrival now contents.length], r.Timely start := by
    intro r hr
    rcases List.mem_append.mp hr with hr | hr
    · exact h.logged r hr
    · obtain rfl := List.mem_singleton.mp hr
      trivial
  rcases PacketQueue.enqueue_takes (p := ⟨now, contents⟩) h.valid hsize he with
    ⟨htakes, hcontents⟩ | ⟨hnot, hlength, hsub⟩
  · rw [if_neg (by simp [hcontents, QueuedPacket.size])]
    refine ⟨⟨hvalid, fun p hp => harrival p (hcontents ▸ hp), h.inTransit, hlogged⟩, ?_⟩
    simp [drops, record, Record.isDrop, htakes]
  · rw [if_pos (.inl (by omega))]
    refine ⟨⟨hvalid, fun p hp => harrival p (hsub.subset hp), h.inTransit, fun r hr => ?_⟩, ?_⟩
    · rcases List.mem_append.mp hr with hr | hr
      · exact hlogged r hr
      · obtain rfl := List.mem_singleton.mp hr
        trivial
    · simp [drops, record, Record.isDrop, hnot]

end

end LinkQueue

/-! ## Runs with a log -/

/-- The clock reading that a call makes. -/
def LinkCall.now : LinkCall → Option Nat
  | .readPacket now _ _ => some now
  | .waitTime now => some now
  | .writePackets => none

/-- A link with a log, the base timestamp in the log's head, which is the
constructor's clock reading, and the last clock reading. -/
structure LoggedLink (tr : Trace) (W : Arith) where
  link : LinkQueue tr (PacketQueue W)
  base : Nat
  reading : Nat

namespace LoggedLink

variable {tr : Trace} {W : Arith} {world : Nat → Env} {s s' : LoggedLink tr W} {c : LinkCall}

def start (tr : Trace) (W : Arith) (t : QueueType) (now : Nat) : LoggedLink tr W :=
  ⟨.initial tr (getPacketQueue W now t) now, now, now⟩

/-- A call that returns, at a clock that does not go back. -/
def step (world : Nat → Env) (s : LoggedLink tr W) (c : LinkCall) : Option (LoggedLink tr W) :=
  let now := c.now.getD s.reading
  if s.reading ≤ now then
    match s.link.call world c with
    | .ok (_, link) => some { s with link := link, reading := now }
    | .error _ => none
  else none

/-- `mm-throughput-graph` gets to the end of the log. -/
def Readable (msPerBin : {n : Nat // 0 < n}) (s : LoggedLink tr W) : Prop :=
  ∃ g, ThroughputGraph.processLog msPerBin (logText s.base s.link.records) = .ok g

/-- A packet that is read is taken by the queue, as it is when the link has
been emulated up to the arrival. -/
def Keeps (world : Nat → Env) (s : LoggedLink tr W) : LinkCall → Prop
  | .readPacket now contents env => ∀ link, s.link.rationalize world now = .ok link →
      PacketQueue.Takes env ⟨now, contents⟩ link.packetQueue
  | .waitTime _ | .writePackets => True

theorem step_eq_some (h : s.step world c = some s') : ∃ written,
    s.link.call world c = .ok (written, s'.link) ∧ s'.base = s.base ∧
      s.reading ≤ s'.reading ∧ ∀ now ∈ c.now, s'.reading = now := by
  unfold step at h
  simp only at h
  split at h
  · next hle =>
      split at h
      · next written link hcall =>
          cases h
          refine ⟨written, hcall, rfl, hle, fun now hnow => ?_⟩
          show c.now.getD s.reading = now
          rw [Option.mem_def.mp hnow]
          rfl
      · cases h
  · cases h

/-- What the calls keep up. -/
structure Inv (s : LoggedLink tr W) : Prop where
  dated : LinkQueue.Dated s.base s.link
  base_le : s.base ≤ s.reading

theorem inv_start (tr : Trace) (W : Arith) (t : QueueType) (now : Nat) :
    (start tr W t now).Inv := by
  refine ⟨⟨PacketQueue.valid_getPacketQueue now t, fun p hp => ?_, fun h => ?_, fun r hr => ?_⟩,
    Nat.le_refl _⟩
  · rw [show (start tr W t now).link.packetQueue.contents = [] from
      PacketQueue.contents_getPacketQueue now t] at hp
    cases hp
  · exact absurd h (Nat.lt_irrefl 0)
  · cases hr

theorem Inv.readable_iff (h : s.Inv) (msPerBin : {n : Nat // 0 < n}) :
    s.Readable msPerBin ↔ s.link.drops = [] := by
  rw [Readable, processLog_logText msPerBin h.dated.logged, LinkQueue.drops, List.filter_eq_nil_iff]
  simp

/-- A call adds lines for drops exactly when a packet that it reads is not taken. -/
theorem Inv.step (h : s.Inv) (hs : s.step world c = some s') :
    s'.Inv ∧ (s'.link.drops = [] ↔ s.link.drops = [] ∧ s.Keeps world c) := by
  obtain ⟨written, hcall, hbase, hreading, hnow⟩ := step_eq_some hs
  have hle : s'.base ≤ s'.reading := hbase ▸ Nat.le_trans h.base_le hreading
  cases LinkQueue.called_of_call hcall with
  | @readPacket now _ _ _ _ hsize hr ha =>
      obtain rfl := hnow now rfl
      obtain ⟨hdated, hdrops⟩ := h.dated.rationalize hr
      obtain ⟨hdated', hiff⟩ := hdated.accept (hbase ▸ hle) (LinkQueue.fits_of_le_packetSize hsize) ha
      refine ⟨⟨hbase ▸ hdated', hle⟩, ?_⟩
      rw [hiff, hdrops, Keeps]
      simp [hr]
  | waitTime hr =>
      obtain ⟨hdated, hdrops⟩ := h.dated.rationalize hr
      exact ⟨⟨hbase ▸ hdated, hle⟩, by rw [hdrops, Keeps, and_true]⟩
  | writePackets _ hlink =>
      have hdated := h.dated
      refine ⟨⟨?_, hle⟩, ?_⟩
      · rw [hbase, hlink]
        exact ⟨hdated.valid, hdated.queued, hdated.inTransit, hdated.logged⟩
      · rw [hlink, Keeps, and_true]
        rfl

/-- **Logs for the throughput graph.** For every run of the link, over every
discipline: the script can use all that has been logged, after each call,
exactly when every packet that is read is taken by the queue without
dropping any. -/
theorem throughput_graph_reads_iff (tr : Trace) (W : Arith) (t : QueueType) (now : Nat)
    (world : Nat → Env) (msPerBin : {n : Nat // 0 < n}) (calls : List LinkCall) :
    Always (step world) (Readable msPerBin) (start tr W t now) calls ↔
      EachStep (step world) (Keeps world) (start tr W t now) calls :=
  always_iff_eachStep (I := fun s : LoggedLink tr W => s.Inv ∧ s.link.drops = [])
    (fun _ h => (h.1.readable_iff msPerBin).mpr h.2)
    (fun _ _ _ h hs hkeeps => ⟨(h.1.step hs).1, (h.1.step hs).2.mpr ⟨h.2, hkeeps⟩⟩)
    (fun _ _ _ h hs hreadable =>
      ((h.1.step hs).2.mp (((h.1.step hs).1.readable_iff msPerBin).mp hreadable)).2)
    ⟨inv_start tr W t now, rfl⟩

/-- Two packets, and then the opportunity to deliver one. -/
def twoPackets : List LinkCall :=
  [.readPacket 1 [7] ⟨1, 1, 0⟩, .readPacket 2 [8, 9] ⟨2, 2, 0⟩, .waitTime 10]

/-- A drop-tail queue of one packet drops the second, and the script stops at
the line that says so. -/
theorem drop_line_stops_script :
    ∃ written link, LinkQueue.run (fun _ => ⟨0, 0, 0⟩) twoPackets
        (start LinkQueue.twoOpportunities .machine (.droptail ⟨1, 0⟩) 0).link = .ok (written, link) ∧
      .departure 10 ⟨1, [7]⟩ ∈ link.records ∧
      (ThroughputGraph.processLog ⟨1, by decide⟩ (logText 0 link.records)).map (fun _ => ())
        = .error (ascii "Unknown event type: d") ∧
      ¬ Always (step fun _ => ⟨0, 0, 0⟩) (Readable ⟨1, by decide⟩)
        (start LinkQueue.twoOpportunities .machine (.droptail ⟨1, 0⟩) 0) twoPackets := by
  refine ⟨_, _, rfl, by decide, by decide +kernel, fun h => ?_⟩
  obtain ⟨-, h⟩ := h
  obtain ⟨-, h⟩ := h _ rfl
  obtain ⟨-, h⟩ := h _ rfl
  obtain ⟨g, hg⟩ := h _ rfl
  have hstop : (ThroughputGraph.processLog ⟨1, by decide⟩ (logText 0
      [.arrival 1 1, .arrival 2 2, .drop 2 1 2, .opportunity 10 1504, .departure 10 ⟨1, [7]⟩])).map
        (fun _ => ()) = .error (ascii "Unknown event type: d") := by
    decide +kernel
  cases (congrArg (Except.map fun _ => ()) hg).symm.trans hstop

end LoggedLink

end Mahimahi
