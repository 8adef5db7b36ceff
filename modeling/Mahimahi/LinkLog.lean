import Mathlib.Algebra.Group.Prod
import Mathlib.Tactic.Abel
import Mahimahi.DropHead
import Mahimahi.Codel
import Mahimahi.Pie
import Mahimahi.LinkQueue

/-!
# What the log accounts for

The log has a line for each arrival and departure, and `readPacket` infers
the drops from the sizes of the queue around its `enqueue`. So the balance
of the log is exact as long as a `dequeue` takes off one packet and no
other: whatever an `enqueue` drops, early, at the tail or at the head, is
the difference that the log reports.

`PacketQueue` is any of the disciplines that `get_packet_queue` creates.
`Accounted` is the balance with one more item, the packets that left the
queue without a line. Every call keeps it (`Accounted.run`), and that item
is empty exactly as long as no `dequeue` is asked of a CoDel queue that
discards (`CODELPacketQueue.discards`).
-/

namespace Mahimahi

/-! ## The disciplines -/

/-- A type of queue, with the arguments that its constructor accepts. -/
inductive QueueType where
  | infinite
  | droptail (l : Limits)
  | drophead (l : Limits)
  | codel (l : Limits) (target interval : Nat) (controlStep : Nat → Nat)
  | pie (l : Limits) (qdelayRef maxBurst : Nat)

/-- What a `unique_ptr<AbstractPacketQueue>` of the link points to. -/
inductive PacketQueue (W : Arith) where
  | infinite (q : InfinitePacketQueue W)
  | droptail (q : DropTailPacketQueue W)
  | drophead (q : DropHeadPacketQueue W)
  | codel (q : CODELPacketQueue W)
  | pie (q : PIEPacketQueue W)

/-- `get_packet_queue`, at the clock reading `now`. -/
def getPacketQueue (W : Arith) (now : Nat) : QueueType → PacketQueue W
  | .infinite => .infinite (.initial W)
  | .droptail l => .droptail (.initial W l)
  | .drophead l => .drophead (.initial W l)
  | .codel l target interval controlStep => .codel (.initial W l target interval controlStep)
  | .pie l qdelayRef maxBurst => .pie (.initial W l qdelayRef maxBurst now)

namespace PacketQueue

variable {W : Arith}

def enqueue (env : Env) (q : PacketQueue W) (p : QueuedPacket) : Except Fault (PacketQueue W) :=
  match q with
  | infinite q => .infinite <$> AbstractPacketQueue.enqueue env q p
  | droptail q => .droptail <$> AbstractPacketQueue.enqueue env q p
  | drophead q => .drophead <$> AbstractPacketQueue.enqueue env q p
  | codel q => .codel <$> AbstractPacketQueue.enqueue env q p
  | pie q => .pie <$> AbstractPacketQueue.enqueue env q p

def dequeue (env : Env) (q : PacketQueue W) : Except Fault (QueuedPacket × PacketQueue W) :=
  match q with
  | infinite q => .map id .infinite <$> AbstractPacketQueue.dequeue env q
  | droptail q => .map id .droptail <$> AbstractPacketQueue.dequeue env q
  | drophead q => .map id .drophead <$> AbstractPacketQueue.dequeue env q
  | codel q => .map id .codel <$> AbstractPacketQueue.dequeue env q
  | pie q => .map id .pie <$> AbstractPacketQueue.dequeue env q

/-- The part that the classes have in common. -/
def store : PacketQueue W → CountedQueue W
  | infinite q => q.store
  | droptail q => q.base.store
  | drophead q => q.base.store
  | codel q => q.base.store
  | pie q => q.base.store

instance : AbstractPacketQueue (PacketQueue W) where
  enqueue := enqueue
  dequeue := dequeue
  empty q := q.store.empty
  sizeBytes q := q.store.sizeBytes
  sizePackets q := q.store.sizePackets

def contents (q : PacketQueue W) : List QueuedPacket := q.store.internalQueue

/-- What every operation of a discipline keeps: the counters are exact, and
the limits, where there are limits, are met. -/
def Valid : PacketQueue W → Prop
  | infinite q => q.store.Fits
  | droptail q => q.base.Valid
  | drophead q => q.base.Valid
  | codel q => q.base.Valid
  | pie q => q.base.Valid

/-- The queues of which a `dequeue` takes off more than it returns. -/
def discards (now : Nat) : PacketQueue W → Bool
  | codel q => q.discards now
  | _ => false

theorem Valid.fits {q : PacketQueue W} (h : q.Valid) : q.store.Fits := by
  cases q with
  | infinite => exact h
  | droptail | drophead | codel | pie => exact DroppingPacketQueue.Valid.fits h

theorem valid_getPacketQueue (now : Nat) (t : QueueType) : (getPacketQueue W now t).Valid := by
  cases t with
  | infinite => exact .of_nil rfl
  | droptail | drophead | codel | pie => exact DroppingPacketQueue.initial_valid _

theorem contents_getPacketQueue (now : Nat) (t : QueueType) :
    (getPacketQueue W now t).contents = [] := by
  cases t <;> rfl

/-- A packet that has been offered, and the sizes that have been read after. -/
theorem enqueue_valid {env : Env} {q q' : PacketQueue W} {p : QueuedPacket} {bytes packets : Nat}
    (hq : q.Valid) (hp : W.Fits p.size) (h : q.enqueue env p = .ok q')
    (hbytes : q'.store.sizeBytes = .ok bytes) (hpackets : q'.store.sizePackets = .ok packets) :
    q'.Valid := by
  cases q with
  | infinite q =>
      cases h
      exact CountedQueue.push_fits hq hp hbytes hpackets
  | droptail q =>
      obtain ⟨r, hr, rfl⟩ := map_eq_ok.mp h
      exact DropTailPacketQueue.enqueue_valid hq hp hr
  | drophead q =>
      obtain ⟨r, hr, rfl⟩ := map_eq_ok.mp h
      exact DropHeadPacketQueue.enqueue_valid hq hp hr
  | codel q =>
      obtain ⟨r, hr, rfl⟩ := map_eq_ok.mp h
      exact CODELPacketQueue.enqueue_valid hq hp hr
  | pie q =>
      obtain ⟨r, hr, rfl⟩ := map_eq_ok.mp h
      exact PIEPacketQueue.enqueue_valid hq hp hr

/-- What a `dequeue` takes off the queue: the packet that it returns and,
when the queue discards, others behind it. -/
theorem dequeue_spec {env : Env} {q q' : PacketQueue W} {p : QueuedPacket} (hq : q.Valid)
    (h : q.dequeue env = .ok (p, q')) :
    q'.Valid ∧ ∃ lost, q.contents = p :: (lost ++ q'.contents) ∧
      (lost = [] ↔ q.discards env.now = false) := by
  cases q with
  | infinite q =>
      obtain ⟨⟨_, r⟩, hr, heq⟩ := map_eq_ok.mp h
      cases heq
      have hcons := InfinitePacketQueue.dequeue_eq_ok.mp hr
      exact ⟨CountedQueue.Fits.of_cons hcons hq, [], hcons, by simp [discards]⟩
  | droptail q =>
      obtain ⟨⟨_, r⟩, hr, heq⟩ := map_eq_ok.mp h
      cases heq
      simp only [AbstractPacketQueue.dequeue, DropTailPacketQueue.dequeue, bind_eq_ok] at hr
      obtain ⟨⟨_, base⟩, hd, hr⟩ := hr
      cases hr
      obtain ⟨hcons, hvalid⟩ := DroppingPacketQueue.dequeue_step hq hd
      exact ⟨hvalid, [], hcons, by simp [discards]⟩
  | drophead q =>
      obtain ⟨⟨_, r⟩, hr, heq⟩ := map_eq_ok.mp h
      cases heq
      simp only [AbstractPacketQueue.dequeue, DropHeadPacketQueue.dequeue, bind_eq_ok] at hr
      obtain ⟨⟨_, base⟩, hd, hr⟩ := hr
      cases hr
      obtain ⟨hcons, hvalid⟩ := DroppingPacketQueue.dequeue_step hq hd
      exact ⟨hvalid, [], hcons, by simp [discards]⟩
  | codel q =>
      obtain ⟨⟨_, r⟩, hr, heq⟩ := map_eq_ok.mp h
      cases heq
      exact CODELPacketQueue.dequeue_step hq hr
  | pie q =>
      obtain ⟨⟨_, r⟩, hr, heq⟩ := map_eq_ok.mp h
      cases heq
      obtain ⟨hcons, hvalid⟩ := DroppingPacketQueue.dequeue_step hq (PIEPacketQueue.dequeue_base hr)
      exact ⟨hvalid, [], hcons, by simp [discards]⟩

end PacketQueue

/-! ## The totals of the log -/

/-- Packets and bytes, as the log counts them. -/
abbrev Totals := Nat × Nat

/-- How many packets there are in a list, and how many bytes. -/
def totals (ps : List QueuedPacket) : Totals := (ps.length, bytesOf ps)

@[simp] theorem totals_nil : totals [] = 0 := rfl

@[simp] theorem totals_cons (p : QueuedPacket) (ps : List QueuedPacket) :
    totals (p :: ps) = (1, p.size) + totals ps := by
  simp [totals, Nat.add_comm]

@[simp] theorem totals_append (ps qs : List QueuedPacket) :
    totals (ps ++ qs) = totals ps + totals qs := by
  simp [totals]

theorem totals_eq_zero {ps : List QueuedPacket} : totals ps = 0 ↔ ps = [] := by
  constructor
  · intro h
    exact List.length_eq_zero_iff.mp (congrArg Prod.fst h)
  · rintro rfl
    rfl

namespace Record

/-- What a `+` line counts. -/
def arrived : Record → Totals
  | .arrival _ size => (1, size)
  | _ => 0

/-- What a `-` line counts. -/
def departed : Record → Totals
  | .departure _ packet => (1, packet.size)
  | _ => 0

/-- What a `d` line counts. -/
def dropped : Record → Totals
  | .drop _ packets bytes => (packets, bytes)
  | _ => 0

end Record

/-- The total of the lines of a log, each counted by `count`. -/
def logged (count : Record → Totals) (rs : List Record) : Totals := (rs.map count).sum

/-- What has arrived by the log has left by it, or is among the packets `ps`. -/
def Balances (rs : List Record) (ps : List QueuedPacket) : Prop :=
  logged Record.arrived rs
    = logged Record.departed rs + logged Record.dropped rs + totals ps

namespace Balances

variable {rs : List Record} {ps ps' : List QueuedPacket}

theorem of_totals (h : Balances rs ps) (heq : totals ps = totals ps') : Balances rs ps' :=
  h.trans (by rw [heq])

theorem opportunity (h : Balances rs ps) (t size : Nat) :
    Balances (rs ++ [.opportunity t size]) ps := by
  simpa [Balances, logged, Record.arrived, Record.departed, Record.dropped] using h

theorem departure {p : QueuedPacket} (h : Balances rs (p :: ps)) (t : Nat) :
    Balances (rs ++ [.departure t p]) ps := by
  have hcount : logged Record.arrived rs
      = logged Record.departed rs + logged Record.dropped rs + ((1, p.size) + totals ps) := by
    rw [← totals_cons]
    exact h
  simp only [Balances, logged, List.map_append, List.map_cons, List.map_nil, List.sum_append,
    List.sum_cons, List.sum_nil, Record.arrived, Record.departed, Record.dropped, add_zero]
    at hcount ⊢
  rw [hcount]
  abel

/-- A packet has arrived; `packets` and `bytes` is what is missing of it and
the packets before. Without a line for a drop nothing may be missing. -/
theorem arrival {size packets bytes : Nat} (h : Balances rs ps) (t : Nat)
    (hsizes : totals ps + (1, size) = totals ps' + (packets, bytes)) :
    Balances (rs ++ [.arrival t size] ++ [.drop t packets bytes]) ps' ∧
      (¬ (0 < packets ∨ 0 < bytes) → Balances (rs ++ [.arrival t size]) ps') := by
  simp only [Balances, logged, List.map_append, List.map_cons, List.map_nil, List.sum_append,
    List.sum_cons, List.sum_nil, Record.arrived, Record.departed, Record.dropped, add_zero]
    at h ⊢
  rw [h, add_assoc, hsizes]
  constructor
  · abel
  · intro hnone
    obtain ⟨rfl, rfl⟩ : packets = 0 ∧ bytes = 0 := by omega
    exact congrArg _ (add_zero _)

end Balances

namespace LinkQueue

variable {tr : Trace} {W : Arith}

/-- The log accounts for every packet. -/
def Balanced (q : LinkQueue tr (PacketQueue W)) : Prop :=
  ∃ packets bytes, AbstractPacketQueue.sizePackets q.packetQueue = .ok packets ∧
    AbstractPacketQueue.sizeBytes q.packetQueue = .ok bytes ∧
    logged Record.arrived q.records = logged Record.departed q.records
      + logged Record.dropped q.records + (packets, bytes) + totals q.inTransit

/-- No `dequeue` so far was asked of a queue that discards. -/
def NoneDiscarded (world : Nat → Env) (q : LinkQueue tr (PacketQueue W)) : Prop :=
  ∀ a ∈ q.asked.zipIdx, a.1.discards (world a.2).now = false

/-- The balance of the log, with the packets `lost` without a line. -/
structure Accounted (world : Nat → Env) (q : LinkQueue tr (PacketQueue W))
    (lost : List QueuedPacket) : Prop where
  valid : q.packetQueue.Valid
  balance : Balances q.records (q.packetQueue.contents ++ q.inTransit ++ lost)
  lost_nil : lost = [] ↔ q.NoneDiscarded world

theorem Accounted.balanced_iff {world : Nat → Env} {q : LinkQueue tr (PacketQueue W)}
    {lost : List QueuedPacket} (h : Accounted world q lost) : q.Balanced ↔ q.NoneDiscarded world := by
  have hpackets := CountedQueue.sizePackets_of_fits h.valid.fits.2
  have hbytes := CountedQueue.sizeBytes_of_fits h.valid.fits.1
  have hbalance := h.balance
  rw [Balances, totals_append, totals_append, ← add_assoc, ← add_assoc] at hbalance
  rw [← h.lost_nil, ← totals_eq_zero]
  constructor
  · rintro ⟨packets, bytes, hp, hb, heq⟩
    obtain rfl := Except.ok.inj (hp.symm.trans hpackets)
    obtain rfl := Except.ok.inj (hb.symm.trans hbytes)
    exact left_eq_add.mp (heq.symm.trans hbalance)
  · intro hlost
    rw [hlost, add_zero] at hbalance
    exact ⟨_, _, hpackets, hbytes, hbalance⟩

/-! ## Every call keeps the account -/

section

theorem fits_of_le_packetSize {n : Nat} (h : n ≤ packetSize) : W.Fits n := by
  cases W
  · exact Nat.lt_of_le_of_lt h (by decide)
  · trivial

variable {world : Nat → Env} {q q' : LinkQueue tr (PacketQueue W)} {lost : List QueuedPacket}

theorem inTransit_of_pos (h : 0 < q.packetInTransitBytesLeft) : q.inTransit = [q.packetInTransit] :=
  if_neg (Nat.ne_of_gt h)

theorem noneDiscarded_asked {packetQueue : PacketQueue W}
    (h : q'.asked = q.asked ++ [packetQueue]) :
    q'.NoneDiscarded world ↔
      q.NoneDiscarded world ∧ packetQueue.discards (world q.asked.length).now = false := by
  simp [NoneDiscarded, h, List.zipIdx_append, or_imp, forall_and]

/-- A packet that is fetched moves from the queue into transit; the others
that leave the queue with it are lost. -/
theorem Accounted.fetch (h : Accounted world q lost)
    (hf : LinkQueue.fetch world q = .ok (some q')) (hpos : 0 < q'.packetInTransitBytesLeft) :
    ∃ lost, Accounted world q' lost := by
  rcases fetch_cases hf with ⟨-, -, hn⟩ | ⟨-, hs⟩ | ⟨hzero, p, packetQueue, hd, hs⟩
  · cases hn
  · cases hs
    exact ⟨lost, h⟩
  · cases hs
    obtain ⟨hvalid, more, hcons, hmore⟩ := PacketQueue.dequeue_spec h.valid hd
    have htransit : q.inTransit = [] := if_pos hzero
    refine ⟨lost ++ more, hvalid, h.balance.of_totals ?_, ?_⟩
    · rw [inTransit_of_pos hpos, htransit, hcons]
      simp only [totals_cons, totals_append, totals_nil]
      abel
    · rw [noneDiscarded_asked rfl, List.append_eq_nil_iff, h.lost_nil, hmore]

theorem Accounted.send (h : Accounted world q lost) {t : Nat} (ht : InTransit t q) (amount : Nat) :
    Accounted world (q.send t amount) lost := by
  have htransit := inTransit_of_pos ht.pos
  simp only [LinkQueue.send]
  split
  · next hzero =>
      refine ⟨h.valid, Balances.departure (h.balance.of_totals ?_) t, h.lost_nil⟩
      rw [htransit, inTransit, if_pos hzero]
      show _ = totals (q.packetInTransit :: (q.packetQueue.contents ++ [] ++ lost))
      simp only [totals_cons, totals_append, totals_nil]
      abel
  · next hpos =>
      refine ⟨h.valid, h.balance.of_totals ?_, h.lost_nil⟩
      rw [htransit, inTransit_of_pos (Nat.pos_of_ne_zero hpos)]

theorem Accounted.deliver (h : Accounted world q lost) (hd : LinkQueue.deliver world q = .ok q') :
    ∃ lost, Accounted world q' lost := by
  have huse : Accounted world q.useADeliveryOpportunity lost :=
    ⟨h.valid, h.balance.opportunity _ _, h.lost_nil⟩
  obtain ⟨-, hI, -⟩ := deliver_invariant hd (I := fun _ s => ∃ lost, Accounted world s lost)
    ⟨lost, huse⟩ (fun _ s s₁ hI _ hf ht => by
      obtain ⟨lost, hI⟩ := hI
      obtain ⟨lost, hI⟩ := hI.fetch hf ht.pos
      exact ⟨lost, hI.send ht _⟩)
  exact hI

theorem Accounted.rationalize {now : Nat} (h : Accounted world q lost)
    (hr : LinkQueue.rationalize world now q = .ok q') : ∃ lost, Accounted world q' lost :=
  rationalize_invariant hr (I := fun s => ∃ lost, Accounted world s lost) ⟨lost, h⟩
    fun _ _ hI _ hd => by
      obtain ⟨lost, hI⟩ := hI
      exact hI.deliver hd

/-- Over exact counters, `accept` sees the lengths of the queue before and after an `enqueue`,
and what is missing is what it logs as dropped. -/
theorem accept_of_valid {now : Nat} {contents : Bytes} {env : Env} (hq : q.packetQueue.Valid)
    (hsize : W.Fits contents.length) (ha : LinkQueue.accept now contents env q = .ok q') :
    ∃ packetQueue : PacketQueue W, q.packetQueue.enqueue env ⟨now, contents⟩ = .ok packetQueue ∧
      packetQueue.Valid ∧ packetQueue.contents.length ≤ q.packetQueue.contents.length + 1 ∧
      bytesOf packetQueue.contents ≤ bytesOf q.packetQueue.contents + contents.length ∧
      q' = if 0 < q.packetQueue.contents.length + 1 - packetQueue.contents.length ∨
          0 < bytesOf q.packetQueue.contents + contents.length - bytesOf packetQueue.contents then
        LinkQueue.record { q.record (.arrival now contents.length) with packetQueue := packetQueue }
          (.drop now (q.packetQueue.contents.length + 1 - packetQueue.contents.length)
            (bytesOf q.packetQueue.contents + contents.length - bytesOf packetQueue.contents))
      else { q.record (.arrival now contents.length) with packetQueue := packetQueue } := by
  simp only [LinkQueue.accept, bind_eq_ok, assertThat_eq_ok, decide_eq_true_eq, pure_eq_ok,
    Except.ok.injEq] at ha
  obtain ⟨bytesBefore, hbb, packetsBefore, hpb, packetQueue, he, packets, hp, -, hple, bytes, hb, -,
    hble, rfl⟩ := ha
  have hvalid : packetQueue.Valid :=
    PacketQueue.enqueue_valid (p := ⟨now, contents⟩) hq hsize he hb hp
  obtain rfl := Except.ok.inj ((CountedQueue.sizeBytes_of_fits hq.fits.1).symm.trans hbb)
  obtain rfl := Except.ok.inj ((CountedQueue.sizePackets_of_fits hq.fits.2).symm.trans hpb)
  obtain rfl := Except.ok.inj ((CountedQueue.sizeBytes_of_fits hvalid.fits.1).symm.trans hb)
  obtain rfl := Except.ok.inj ((CountedQueue.sizePackets_of_fits hvalid.fits.2).symm.trans hp)
  exact ⟨packetQueue, he, hvalid, hple, hble, rfl⟩

/-- What the sizes of the queue before and after an `enqueue` say is missing
is what the log reports as dropped. -/
theorem Accounted.accept {now : Nat} {contents : Bytes} {env : Env} (h : Accounted world q lost)
    (hsize : W.Fits contents.length) (ha : LinkQueue.accept now contents env q = .ok q') :
    Accounted world q' lost := by
  obtain ⟨packetQueue, -, hvalid, hple, hble, rfl⟩ := accept_of_valid h.valid hsize ha
  have hmissing : totals q.packetQueue.contents + (1, contents.length)
      = totals packetQueue.contents
        + (q.packetQueue.contents.length + 1 - packetQueue.contents.length,
          bytesOf q.packetQueue.contents + contents.length - bytesOf packetQueue.contents) :=
    Prod.ext (Nat.add_sub_cancel' hple).symm (Nat.add_sub_cancel' hble).symm
  have hsizes : totals (q.packetQueue.contents ++ q.inTransit ++ lost) + (1, contents.length)
      = totals (packetQueue.contents ++ q.inTransit ++ lost)
        + (q.packetQueue.contents.length + 1 - packetQueue.contents.length,
          bytesOf q.packetQueue.contents + contents.length - bytesOf packetQueue.contents) := by
    simp only [totals_append]
    rw [add_right_comm, add_right_comm (totals q.packetQueue.contents), hmissing]
    abel
  have hbalance := h.balance.arrival now hsizes
  split
  · exact ⟨hvalid, hbalance.1, h.lost_nil⟩
  · next hnone => exact ⟨hvalid, hbalance.2 hnone, h.lost_nil⟩

theorem Accounted.call {c : LinkCall} {written : List Bytes} (h : Accounted world q lost)
    (hc : q.call world c = .ok (written, q')) : ∃ lost, Accounted world q' lost := by
  cases called_of_call hc with
  | readPacket hsize hr ha =>
      obtain ⟨lost, h⟩ := h.rationalize hr
      exact ⟨lost, h.accept (fits_of_le_packetSize hsize) ha⟩
  | waitTime hr => exact h.rationalize hr
  | writePackets _ heq =>
      subst heq
      exact ⟨lost, h.valid, h.balance, h.lost_nil⟩

theorem Accounted.run : ∀ (calls : List LinkCall) {q q' : LinkQueue tr (PacketQueue W)}
    {lost : List QueuedPacket} {written : List Bytes}, Accounted world q lost →
    LinkQueue.run world calls q = .ok (written, q') → ∃ lost, Accounted world q' lost
  | [], _, _, lost, _, h, hrun => by
      cases hrun
      exact ⟨lost, h⟩
  | c :: calls, q, q', lost, written, h, hrun => by
      obtain ⟨r, hc, r', hmore, heq⟩ := run_cons_eq_ok.mp hrun
      cases heq
      obtain ⟨lost, h⟩ := h.call hc
      exact Accounted.run calls h hmore

end

theorem accounted_initial (tr : Trace) (W : Arith) (world : Nat → Env) (start : Nat)
    (t : QueueType) : Accounted world (initial tr (getPacketQueue W start t) start) [] where
  valid := PacketQueue.valid_getPacketQueue start t
  balance := by
    rw [show (initial tr (getPacketQueue W start t) start).packetQueue.contents = [] from
      PacketQueue.contents_getPacketQueue start t]
    rfl
  lost_nil := by simp [NoneDiscarded, initial]

/-- **What the log accounts for.** Between any two calls of a run, with any
discipline, the log is balanced exactly when no `dequeue` up to there was
asked of a CoDel queue that discards. -/
theorem log_balanced_iff (tr : Trace) (W : Arith) (start : Nat) (t : QueueType) (world : Nat → Env)
    (calls : List LinkCall) (written : List Bytes) (q : LinkQueue tr (PacketQueue W))
    (hrun : run world calls (initial tr (getPacketQueue W start t) start) = .ok (written, q)) :
    q.Balanced ↔ q.NoneDiscarded world := by
  obtain ⟨lost, h⟩ := (accounted_initial tr W world start t).run calls hrun
  exact h.balanced_iff

/-- Opportunities at 10 and at 200 milliseconds, and so on. -/
def twoOpportunities : Trace := ⟨[10, 200], true, by simp, by simp, by decide⟩

/-- A drop-tail queue of one packet drops the second of two. -/
theorem log_balanced_iff_droptail :
    ∃ written q, run (fun _ => ⟨0, 0, 0⟩)
        [.readPacket 1 [7] ⟨1, 1, 0⟩, .readPacket 2 [8, 9] ⟨2, 2, 0⟩]
        (initial twoOpportunities (getPacketQueue .machine 0 (.droptail ⟨1, 0⟩)) 0)
          = .ok (written, q) ∧
      logged Record.dropped q.records = (1, 2) ∧ q.Balanced :=
  ⟨_, _, rfl, rfl, (log_balanced_iff twoOpportunities .machine 0 (.droptail ⟨1, 0⟩) (fun _ => ⟨0, 0, 0⟩)
    [.readPacket 1 [7] ⟨1, 1, 0⟩, .readPacket 2 [8, 9] ⟨2, 2, 0⟩] _ _ rfl).mpr fun _ ha => by cases ha⟩

/-- Four full-size packets at once, over CoDel with a target of 5 ms and an
interval of 100 ms. -/
def fourPackets : List LinkCall :=
  (List.range 4).map fun i => .readPacket 0 (List.replicate 1504 i.toUInt8) ⟨0, 0, 0⟩

/-- The `dequeue` calls come at 10 and at 200 milliseconds. The second takes
off two packets, of which one leaves no line in the log. -/
theorem codel_drop_unlogged :
    ∃ written q, run (fun n => if n = 0 then ⟨10, 10, 0⟩ else ⟨200, 200, 0⟩)
        (fourPackets ++ [.waitTime 10, .waitTime 200])
        (initial twoOpportunities
          (getPacketQueue .machine 0 (.codel ⟨100, 0⟩ 5 100 (Nat.sqrt <| 100 ^ 2 / ·))) 0)
          = .ok (written, q) ∧ ¬ q.Balanced := by
  have hstate : (run (fun n => if n = 0 then ⟨10, 10, 0⟩ else ⟨200, 200, 0⟩)
      (fourPackets ++ [.waitTime 10, .waitTime 200])
      (initial twoOpportunities
        (getPacketQueue .machine 0
          (.codel ⟨100, 0⟩ 5 100 (Nat.sqrt <| 100 ^ 2 / ·))) 0)).toOption.any
        (fun r => r.2.asked.zipIdx.any fun a =>
          a.1.discards (if a.2 = 0 then (⟨10, 10, 0⟩ : Env) else ⟨200, 200, 0⟩).now) = true := by
    decide +kernel
  cases hrun : run (fun n => if n = 0 then ⟨10, 10, 0⟩ else ⟨200, 200, 0⟩)
      (fourPackets ++ [.waitTime 10, .waitTime 200])
      (initial twoOpportunities
        (getPacketQueue .machine 0 (.codel ⟨100, 0⟩ 5 100 (Nat.sqrt <| 100 ^ 2 / ·))) 0) with
  | error e => rw [hrun] at hstate; cases hstate
  | ok r =>
      rw [hrun] at hstate
      obtain ⟨lost, h⟩ := (accounted_initial twoOpportunities .machine _ 0 _).run _ hrun
      obtain ⟨a, ha, hdisc⟩ := List.any_eq_true.mp hstate
      refine ⟨r.1, r.2, rfl, fun hb => ?_⟩
      have hnone := h.balanced_iff.mp hb a ha
      rw [hdisc] at hnone
      cases hnone

end LinkQueue

end Mahimahi
