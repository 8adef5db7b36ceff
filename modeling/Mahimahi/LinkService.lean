import Mahimahi.LinkDelivery

/-!
# What the link carries

With an infinite queue the link is a server of bytes: an opportunity takes
the next `packetSize` bytes of the packets accepted so far, or what there
is. `Served` says so of a link and its history, given as the list of its
opportunities, each with the link before and after it. The packets depart
in the order of arrival, each at the opportunity that carries its last
byte: the one at which the bytes sent reach the sum of the sizes up to it.

`Ledger` is `Served` with what an opportunity needs to keep it so. One
opportunity moves some packets from the front of the queue to the output
(`deliver_spec`), and the ledger follows (`Ledger.deliver`); a whole run
keeps it (`Ledger.run`).

The other half is that a run of packets of the right sizes does come to its
end (`run_ready`): while time stays within bounds, no assertion fails.
-/

namespace Mahimahi

/-- The packets that a run of calls offers to the link. -/
def offeredPackets (calls : List LinkCall) : List QueuedPacket :=
  (arrivals calls).map fun a => ⟨a.1, a.2⟩

/-- The infinite queue gives its front whatever else holds of it. -/
def InfinitePacketQueue.givesFront {W : Arith} : GivesFront (InfinitePacketQueue W) where
  contents q := q.store.internalQueue
  Inv _ := True
  empty_iff := CountedQueue.empty_eq_true
  dequeue env {q} {p} {ps} _ h := by
    cases hpop : q.store.pop with
    | none =>
        rw [CountedQueue.pop_eq_none.mp hpop] at h
        cases h
    | some r =>
        have hcons := CountedQueue.pop_eq_some.mp hpop
        obtain ⟨rfl, hrest⟩ := List.cons_eq_cons.mp (h.symm.trans hcons)
        refine ⟨⟨r.2⟩, ?_, trivial, hrest.symm⟩
        show q.dequeue = .ok (r.1, ⟨r.2⟩)
        rw [InfinitePacketQueue.dequeue, hpop]

namespace LinkQueue

/-! ## The history of a link -/

section

variable {tr : Trace} {Q : Type}

variable [AbstractPacketQueue Q]

/-- The opportunities that a call burns: the link before and after each. -/
def callOpportunities (world : Nat → Env) (q : LinkQueue tr Q) :
    LinkCall → List (LinkQueue tr Q × LinkQueue tr Q)
  | .readPacket now contents _ =>
      if packetSize < contents.length then []
      else turns (whileDo (isDue now) (deliver world)) (maxTurns tr now) q
  | .waitTime now => turns (whileDo (isDue now) (deliver world)) (maxTurns tr now) q
  | .writePackets => []

/-- The opportunities that a run burns. -/
def opportunities (world : Nat → Env) : List LinkCall → LinkQueue tr Q →
    List (LinkQueue tr Q × LinkQueue tr Q)
  | [], _ => []
  | c :: calls, q => q.callOpportunities world c ++
      match q.call world c with
      | .ok r => opportunities world calls r.2
      | .error _ => []

end

variable {tr : Trace} {W : Arith}

/-- The packets in the queue. -/
def queued (q : LinkQueue tr (InfinitePacketQueue W)) : List QueuedPacket :=
  q.packetQueue.store.internalQueue

/-- The accepted bytes that have not been sent. -/
def backlog (q : LinkQueue tr (InfinitePacketQueue W)) : Nat :=
  q.packetInTransitBytesLeft + bytesOf q.queued

/-- The bytes that the first `j` opportunities carried. -/
def sent (ops : List (LinkQueue tr (InfinitePacketQueue W) × LinkQueue tr (InfinitePacketQueue W)))
    (j : Nat) : Nat :=
  ((ops.take j).map fun o => o.1.backlog - o.2.backlog).sum

/-- The service law: `accepted` are the packets that have come, `written` is
what has left, and `ops` are the opportunities up to `q`. -/
structure Served (accepted : List QueuedPacket) (written : List Bytes)
    (ops : List (LinkQueue tr (InfinitePacketQueue W) × LinkQueue tr (InfinitePacketQueue W)))
    (q : LinkQueue tr (InfinitePacketQueue W)) : Prop where
  /-- The opportunities are the ones in the log. -/
  logged : q.opportunityTimes = ops.map fun o => o.1.nextDeliveryTime
  /-- Each carries `packetSize` bytes, or all that there are: the bytes that
  have arrived less those that were sent before. -/
  carried : ∀ j s s', ops[j]? = some (s, s') → s.arrivedBytes = sent ops j + s.backlog ∧
    s.backlog = s'.backlog + min packetSize s.backlog
  /-- No packet is lost, changed, sent twice or overtaken. -/
  order : accepted = q.departed.map Prod.snd ++ q.inTransit ++ q.queued
  outputs : written ++ q.outputQueue = q.departed.map fun d => d.2.contents
  /-- The `i`-th packet departs at the opportunity that carries its last byte. -/
  times : ∀ i t p, q.departed[i]? = some (t, p) → ∃ j s s', ops[j]? = some (s, s') ∧
    t = s.nextDeliveryTime ∧ sent ops j < bytesOf (accepted.take (i + 1)) ∧
    bytesOf (accepted.take (i + 1)) ≤ sent ops (j + 1)

/-! ## One opportunity -/

/-- What the packets in the link satisfy. -/
structure Sized (q : LinkQueue tr (InfinitePacketQueue W)) : Prop where
  queued : ∀ p ∈ q.queued, p.size ≤ packetSize
  left_le : q.packetInTransitBytesLeft ≤ q.packetInTransit.size

/-- `fetch` moves the front of the queue into transit, or nothing. -/
theorem fetch_infinite {world : Nat → Env} {q q₁ : LinkQueue tr (InfinitePacketQueue W)}
    (hq : q.Sized) (h : fetch world q = .ok (some q₁)) (hpos : 0 < q₁.packetInTransitBytesLeft) :
    q₁.inTransit ++ q₁.queued = q.inTransit ++ q.queued ∧ q₁.backlog = q.backlog ∧
      q₁.records = q.records ∧ q₁.outputQueue = q.outputQueue ∧ q₁.Sized := by
  rcases fetch_cases h with ⟨-, -, hn⟩ | ⟨-, hs⟩ | ⟨hzero, p, packetQueue, hd, hs⟩
  · cases hn
  · cases hs
    exact ⟨rfl, rfl, rfl, rfl, hq⟩
  · have hqueued : q.queued = p :: packetQueue.store.internalQueue :=
      InfinitePacketQueue.dequeue_eq_ok.mp hd
    cases hs
    have hsize : p.size ≤ packetSize := hq.queued p (by rw [hqueued]; exact List.mem_cons_self ..)
    have hu : u32 p.size = p.size := u32_of_lt (Nat.lt_of_le_of_lt hsize (by decide))
    rw [hu] at hpos ⊢
    refine ⟨?_, ?_, rfl, rfl, ?_, ?_⟩
    · simp only [inTransit, hzero, if_true, if_neg (Nat.ne_of_gt hpos), List.nil_append, hqueued]
      rfl
    · simp only [backlog, hzero, hqueued, bytesOf_cons, Nat.zero_add]
      rfl
    · intro p' hp'
      exact hq.queued p' (by rw [hqueued]; exact List.mem_cons_of_mem _ hp')
    · exact Nat.le_refl _

/-- What an opportunity has done by the time `bytesLeft` bytes of it are left:
it has sent the packets `ps`. -/
structure Sending (q : LinkQueue tr (InfinitePacketQueue W)) (bytesLeft : Nat)
    (s : LinkQueue tr (InfinitePacketQueue W)) (ps : List QueuedPacket) : Prop where
  departed : s.departed = q.departed ++ ps.map fun p => (q.nextDeliveryTime, p)
  outputs : s.outputQueue = q.outputQueue ++ ps.map QueuedPacket.contents
  order : q.inTransit ++ q.queued = ps ++ s.inTransit ++ s.queued
  bytes : q.backlog + bytesLeft = s.backlog + packetSize
  le : bytesLeft ≤ packetSize
  arrived : s.arrivedBytes = q.arrivedBytes
  logged : s.opportunityTimes = q.opportunityTimes ++ [q.nextDeliveryTime]
  nonempty : ∀ p ∈ ps, 0 < p.size
  sized : s.Sized

theorem sending_use {q : LinkQueue tr (InfinitePacketQueue W)} (hq : q.Sized) :
    Sending q packetSize q.useADeliveryOpportunity [] where
  departed := by simp [useADeliveryOpportunity, record, LinkQueue.departed]
  outputs := by simp [useADeliveryOpportunity, record]
  order := rfl
  bytes := rfl
  le := Nat.le_refl _
  arrived := by simp [useADeliveryOpportunity, record, arrivedBytes]
  logged := by simp [useADeliveryOpportunity, record, opportunityTimes]
  nonempty := by simp
  sized := ⟨hq.queued, hq.left_le⟩

theorem Sending.send {world : Nat → Env} {q s s₁ : LinkQueue tr (InfinitePacketQueue W)}
    {bytesLeft : Nat} {ps : List QueuedPacket} (h : Sending q bytesLeft s ps)
    (hf : fetch world s = .ok (some s₁)) (ht : InTransit q.nextDeliveryTime s₁) :
    ∃ ps', Sending q (bytesLeft - min bytesLeft s₁.packetInTransitBytesLeft)
      (s₁.send q.nextDeliveryTime (min bytesLeft s₁.packetInTransitBytesLeft)) ps' := by
  obtain ⟨horder, hback, hrec, hout, hsized⟩ := fetch_infinite h.sized hf ht.pos
  have hle := h.le
  have hbytes := h.bytes
  have hpos := ht.pos
  have htransit : s₁.inTransit = [s₁.packetInTransit] := if_neg (Nat.ne_of_gt hpos)
  rw [← hback] at hbytes
  by_cases hdone : s₁.packetInTransitBytesLeft - min bytesLeft s₁.packetInTransitBytesLeft = 0
  · refine ⟨ps ++ [s₁.packetInTransit], ?_⟩
    simp only [LinkQueue.send, if_pos hdone]
    refine ⟨?_, ?_, ?_, ?_, by omega, ?_, ?_, ?_, ?_⟩
    · have := h.departed
      simp only [LinkQueue.departed, record, hrec, List.filterMap_append, List.map_append] at this ⊢
      rw [this]
      simp
    · simp [hout, h.outputs]
    · rw [h.order, List.append_assoc, ← horder, htransit]
      simp [inTransit, hdone, record, LinkQueue.queued]
    · simp only [backlog, hdone, record, LinkQueue.queued] at hbytes ⊢
      omega
    · have := h.arrived
      simp only [arrivedBytes, record, hrec] at this ⊢
      simp [this]
    · have := h.logged
      simp only [opportunityTimes, record, hrec] at this ⊢
      simp [this]
    · intro p hp
      rcases List.mem_append.mp hp with hp | hp
      · exact h.nonempty p hp
      · obtain rfl := List.mem_singleton.mp hp
        exact Nat.lt_of_lt_of_le hpos ht.le_size
    · exact ⟨hsized.queued, by simp [hdone]⟩
  · refine ⟨ps, ?_⟩
    simp only [LinkQueue.send, if_neg hdone]
    refine ⟨?_, ?_, ?_, ?_, by omega, ?_, ?_, h.nonempty, ?_⟩
    · simpa only [LinkQueue.departed, hrec] using h.departed
    · exact hout.trans h.outputs
    · rw [h.order, List.append_assoc, ← horder, htransit]
      simp [inTransit, hdone, LinkQueue.queued]
    · simp only [backlog, LinkQueue.queued] at hbytes ⊢
      omega
    · simpa only [arrivedBytes, hrec] using h.arrived
    · simpa only [opportunityTimes, hrec] using h.logged
    · refine ⟨hsized.queued, ?_⟩
      have := hsized.left_le
      simp only
      omega

/-- One opportunity: the packets that depart, and the bytes that it carries. -/
theorem deliver_spec {world : Nat → Env} {q q' : LinkQueue tr (InfinitePacketQueue W)}
    (hq : q.Sized) (h : deliver world q = .ok q') :
    ∃ bytesLeft ps, Sending q bytesLeft q' ps ∧ q.backlog = q'.backlog + min packetSize q.backlog := by
  obtain ⟨bytesLeft, ⟨ps, hs⟩, hend⟩ := deliver_invariant h
    (I := fun bytesLeft s => ∃ ps, Sending q bytesLeft s ps) ⟨[], sending_use hq⟩
    (fun _ s s₁ hI _ hf ht => by
      obtain ⟨ps, hI⟩ := hI
      exact hI.send hf ht)
  refine ⟨bytesLeft, ps, hs, ?_⟩
  have hbytes := hs.bytes
  have hle := hs.le
  rcases hend with hzero | hnone
  · omega
  · -- the loop was left because there was nothing to send
    rcases fetch_cases hnone with ⟨hleft, hempty, -⟩ | ⟨-, hn⟩ | ⟨-, _, _, -, hn⟩
    · have hq' : q'.queued = [] := CountedQueue.empty_eq_true.mp hempty
      have hback : q'.backlog = 0 := by simp [backlog, hleft, hq']
      omega
    · cases hn
    · cases hn

/-! ## The ledger -/

/-- `Served`, with the totals: what was accepted is what was sent and what is left. -/
structure Ledger (accepted : List QueuedPacket) (written : List Bytes)
    (ops : List (LinkQueue tr (InfinitePacketQueue W) × LinkQueue tr (InfinitePacketQueue W)))
    (q : LinkQueue tr (InfinitePacketQueue W)) : Prop where
  served : Served accepted written ops q
  total : bytesOf accepted = sent ops ops.length + q.backlog
  arrived : q.arrivedBytes = bytesOf accepted
  sized : q.Sized

theorem ledger_initial (tr : Trace) (W : Arith) (start : Nat) :
    Ledger [] [] [] (initial tr (InfinitePacketQueue.initial W) start) where
  served :=
    { logged := rfl
      carried := fun j s s' h => by simp at h
      order := rfl
      outputs := rfl
      times := fun i t p h => by simp [departed, initial] at h }
  total := rfl
  arrived := rfl
  sized := ⟨fun p hp => absurd hp (List.not_mem_nil), Nat.le_refl _⟩

section

variable {ops : List (LinkQueue tr (InfinitePacketQueue W) × LinkQueue tr (InfinitePacketQueue W))}
  {o : LinkQueue tr (InfinitePacketQueue W) × LinkQueue tr (InfinitePacketQueue W)}

theorem sent_append_of_le {j : Nat} (h : j ≤ ops.length) : sent (ops ++ [o]) j = sent ops j := by
  unfold sent
  rw [List.take_append_of_le_length h]

theorem sent_append_last :
    sent (ops ++ [o]) (ops.length + 1) = sent ops ops.length + (o.1.backlog - o.2.backlog) := by
  unfold sent
  rw [List.take_of_length_le (by simp), List.take_length]
  simp

end

theorem bytesOf_take_le (ps : List QueuedPacket) {m n : Nat} (h : m ≤ n) :
    bytesOf (ps.take m) ≤ bytesOf (ps.take n) := by
  obtain ⟨k, rfl⟩ := Nat.exists_eq_add_of_le h
  rw [List.take_add, bytesOf_append]
  omega

theorem sent_lt {accepted : List QueuedPacket} {written : List Bytes}
    {ops : List (LinkQueue tr (InfinitePacketQueue W) × LinkQueue tr (InfinitePacketQueue W))}
    {q : LinkQueue tr (InfinitePacketQueue W)} (h : Ledger accepted written ops q)
    {p : QueuedPacket} {rest : List QueuedPacket} (hp : q.inTransit ++ q.queued = p :: rest)
    (hpos : 0 < p.size) :
    sent ops ops.length < bytesOf (accepted.take (q.departed.length + 1)) := by
  have htotal := h.total
  have horder := h.served.order
  rw [List.append_assoc, hp] at horder
  have hlen : (q.departed.map Prod.snd).length = q.departed.length := by simp
  have htake : accepted.take (q.departed.length + 1) = q.departed.map Prod.snd ++ [p] := by
    rw [horder, ← hlen, List.take_length_add_append]
    rfl
  rw [htake, bytesOf_append]
  rw [h.served.order] at htotal
  simp only [bytesOf_append, backlog] at htotal
  simp only [bytesOf_cons, bytesOf_nil]
  by_cases hzero : q.packetInTransitBytesLeft = 0
  · have hnil : q.inTransit = [] := if_pos hzero
    rw [hnil, bytesOf_nil] at htotal
    omega
  · have hone : q.inTransit = [q.packetInTransit] := if_neg hzero
    rw [hone] at hp htotal
    obtain ⟨rfl, -⟩ := List.cons_eq_cons.mp hp
    have := h.sized.left_le
    simp only [bytesOf_cons, bytesOf_nil] at htotal
    omega

theorem departed_le_sent {accepted : List QueuedPacket} {q : LinkQueue tr (InfinitePacketQueue W)}
    {n : Nat} (horder : accepted = q.departed.map Prod.snd ++ q.inTransit ++ q.queued)
    (hsized : q.Sized) (htotal : bytesOf accepted = n + q.backlog) {i : Nat}
    (hi : i < q.departed.length) : bytesOf (accepted.take (i + 1)) ≤ n := by
  have hle : bytesOf (accepted.take (i + 1)) ≤ bytesOf (q.departed.map Prod.snd) := by
    have htake : accepted.take (q.departed.map Prod.snd).length = q.departed.map Prod.snd := by
      rw [horder, List.append_assoc, List.take_left]
    rw [← htake]
    exact bytesOf_take_le _ (by simpa using Nat.succ_le_of_lt hi)
  have htransit : q.packetInTransitBytesLeft ≤ bytesOf q.inTransit := by
    unfold inTransit
    split
    · omega
    · simpa using hsized.left_le
  rw [horder] at htotal
  simp only [bytesOf_append, backlog] at htotal
  omega

/-- The packets that have departed before keep their opportunities, and those that an
opportunity sends get it. -/
theorem Ledger.deliver_times {accepted : List QueuedPacket} {written : List Bytes}
    {ops : List (LinkQueue tr (InfinitePacketQueue W) × LinkQueue tr (InfinitePacketQueue W))}
    {q q' : LinkQueue tr (InfinitePacketQueue W)} {bytesLeft : Nat} {ps : List QueuedPacket}
    (h : Ledger accepted written ops q) (hs : Sending q bytesLeft q' ps)
    (horder : accepted = q'.departed.map Prod.snd ++ q'.inTransit ++ q'.queued)
    (htotal : bytesOf accepted = sent (ops ++ [(q, q')]) (ops.length + 1) + q'.backlog)
    {i t : Nat} {p : QueuedPacket} (hi : q'.departed[i]? = some (t, p)) :
    ∃ j s s', (ops ++ [(q, q')])[j]? = some (s, s') ∧ t = s.nextDeliveryTime ∧
      sent (ops ++ [(q, q')]) j < bytesOf (accepted.take (i + 1)) ∧
      bytesOf (accepted.take (i + 1)) ≤ sent (ops ++ [(q, q')]) (j + 1) := by
  rcases Nat.lt_or_ge i q.departed.length with hlt | hge
  · -- it departed before
    rw [hs.departed, List.getElem?_append_left hlt] at hi
    obtain ⟨j, s, s', hj, ht, hlow, hhigh⟩ := h.served.times i t p hi
    have hjlt : j < ops.length := (List.getElem?_eq_some_iff.mp hj).1
    refine ⟨j, s, s', ?_, ht, ?_, ?_⟩
    · rw [List.getElem?_append_left hjlt, hj]
    · rwa [sent_append_of_le (Nat.le_of_lt hjlt)]
    · rwa [sent_append_of_le hjlt]
  · have hi' : i < q'.departed.length := (List.getElem?_eq_some_iff.mp hi).1
    rw [hs.departed, List.getElem?_append_right hge] at hi
    refine ⟨ops.length, q, q', ?_, ?_, ?_, departed_le_sent horder hs.sized htotal hi'⟩
    · rw [List.getElem?_append_right (Nat.le_refl _), Nat.sub_self]
      rfl
    · obtain ⟨p', -, hp'⟩ := List.mem_map.mp (List.mem_of_getElem? hi)
      exact (congrArg Prod.fst hp').symm
    · rw [sent_append_of_le (Nat.le_refl _)]
      cases hps : ps with
      | nil => rw [hps] at hi; simp at hi
      | cons p₀ ps' =>
          have hfirst : q.inTransit ++ q.queued = p₀ :: (ps' ++ q'.inTransit ++ q'.queued) := by
            rw [hs.order, hps]
            simp
          have hpos := hs.nonempty p₀ (by rw [hps]; exact List.mem_cons_self ..)
          exact Nat.lt_of_lt_of_le (sent_lt h hfirst hpos) (bytesOf_take_le _ (by omega))

theorem Ledger.deliver {world : Nat → Env} {accepted : List QueuedPacket} {written : List Bytes}
    {ops : List (LinkQueue tr (InfinitePacketQueue W) × LinkQueue tr (InfinitePacketQueue W))}
    {q q' : LinkQueue tr (InfinitePacketQueue W)} (h : Ledger accepted written ops q)
    (hd : deliver world q = .ok q') : Ledger accepted written (ops ++ [(q, q')]) q' := by
  obtain ⟨bytesLeft, ps, hs, hcarried⟩ := deliver_spec h.sized hd
  have htotal' : bytesOf accepted = sent (ops ++ [(q, q')]) (ops.length + 1) + q'.backlog := by
    have := h.total
    rw [sent_append_last]
    simp only
    omega
  have horder' : accepted = q'.departed.map Prod.snd ++ q'.inTransit ++ q'.queued := by
    rw [h.served.order, List.append_assoc, hs.order, hs.departed]
    simp [Function.comp_def]
  refine ⟨⟨?_, ?_, horder', ?_, fun i t p hi => h.deliver_times hs horder' htotal' hi⟩, ?_,
    hs.arrived.trans h.arrived, hs.sized⟩
  · rw [hs.logged, h.served.logged, List.map_append]
    rfl
  · intro j s s' hj
    rcases Nat.lt_or_ge j ops.length with hlt | hge
    · rw [List.getElem?_append_left hlt] at hj
      rw [sent_append_of_le (Nat.le_of_lt hlt)]
      exact h.served.carried j s s' hj
    · rw [List.getElem?_append_right hge] at hj
      obtain ⟨hj0, hpair⟩ : j = ops.length ∧ (q, q') = (s, s') := by
        cases hsub : j - ops.length with
        | zero => rw [hsub] at hj; exact ⟨by omega, Option.some.inj hj⟩
        | succ n => rw [hsub] at hj; cases hj
      cases hpair
      rw [hj0, sent_append_of_le (Nat.le_refl _)]
      exact ⟨h.arrived.trans h.total, hcarried⟩
  · rw [hs.outputs, ← List.append_assoc, h.served.outputs, hs.departed]
    simp [Function.comp_def]
  · rw [List.length_append, List.length_singleton]
    exact htotal'

theorem Ledger.rationalize {world : Nat → Env} {now : Nat} {accepted : List QueuedPacket}
    {written : List Bytes}
    {ops : List (LinkQueue tr (InfinitePacketQueue W) × LinkQueue tr (InfinitePacketQueue W))}
    {q q' : LinkQueue tr (InfinitePacketQueue W)} (h : Ledger accepted written ops q)
    (hr : q.rationalize world now = .ok q') :
    Ledger accepted written
      (ops ++ turns (whileDo (isDue now) (LinkQueue.deliver world)) (maxTurns tr now) q) q' := by
  refine loop_turns (I := Ledger accepted written) (Q := Ledger accepted written) ?_ ?_ h hr
  · intro ts s s' hI hb
    exact hI.deliver (whileDo_again.mp hb).2
  · intro ts s r hI hb
    obtain ⟨-, rfl⟩ := whileDo_leave.mp hb
    exact hI

theorem Ledger.accept {accepted : List QueuedPacket} {written : List Bytes} {now : Nat}
    {contents : Bytes} {env : Env}
    {ops : List (LinkQueue tr (InfinitePacketQueue W) × LinkQueue tr (InfinitePacketQueue W))}
    {q q' : LinkQueue tr (InfinitePacketQueue W)} (h : Ledger accepted written ops q)
    (hsize : contents.length ≤ packetSize) (ha : q.accept now contents env = .ok q') :
    Ledger (accepted ++ [⟨now, contents⟩]) written ops q' := by
  obtain ⟨packetQueue, -, -, drops, henq, -, -, hdrops, hq⟩ := accept_eq_ok ha
  obtain rfl : q.packetQueue.enqueue ⟨now, contents⟩ = packetQueue := Except.ok.inj henq
  -- a drop line is neither a departure nor an opportunity nor an arrival
  have hdep : q'.departed = q.departed := by
    rcases hdrops with rfl | ⟨t, n, b, rfl⟩ <;> simp [hq, departed]
  have hops : q'.opportunityTimes = q.opportunityTimes := by
    rcases hdrops with rfl | ⟨t, n, b, rfl⟩ <;> simp [hq, opportunityTimes]
  have harr : q'.arrivedBytes = q.arrivedBytes + contents.length := by
    rcases hdrops with rfl | ⟨t, n, b, rfl⟩ <;> simp [hq, arrivedBytes]
  have hqueued : q'.queued = q.queued ++ [⟨now, contents⟩] := by rw [hq]; rfl
  have htransit : q'.inTransit = q.inTransit := by rw [hq]; rfl
  have hlen : q.departed.length ≤ accepted.length := by
    rw [h.served.order]
    simp only [List.length_append, List.length_map]
    omega
  refine ⟨⟨?_, h.served.carried, ?_, ?_, ?_⟩, ?_, ?_, ?_⟩
  · rw [hops, h.served.logged]
  · rw [hdep, htransit, hqueued, h.served.order]
    simp
  · rw [hdep, ← h.served.outputs, hq]
  · intro i t p hi
    rw [hdep] at hi
    have hlt : i < q.departed.length := (List.getElem?_eq_some_iff.mp hi).1
    rw [List.take_append_of_le_length (by omega)]
    exact h.served.times i t p hi
  · have hleft : q'.packetInTransitBytesLeft = q.packetInTransitBytesLeft := by rw [hq]
    simp only [bytesOf_append, h.total, backlog, hqueued, hleft]
    omega
  · rw [harr, h.arrived, bytesOf_append]
    simp [QueuedPacket.size]
  · refine ⟨fun p hp => ?_, by rw [hq]; exact h.sized.left_le⟩
    rw [hqueued] at hp
    rcases List.mem_append.mp hp with hp | hp
    · exact h.sized.queued p hp
    · obtain rfl := List.mem_singleton.mp hp
      exact hsize

theorem Ledger.call {world : Nat → Env} {c : LinkCall} {accepted : List QueuedPacket}
    {written more : List Bytes}
    {ops : List (LinkQueue tr (InfinitePacketQueue W) × LinkQueue tr (InfinitePacketQueue W))}
    {q q' : LinkQueue tr (InfinitePacketQueue W)} (h : Ledger accepted written ops q)
    (hc : q.call world c = .ok (more, q')) :
    Ledger (accepted ++ offeredPackets [c]) (written ++ more) (ops ++ q.callOpportunities world c)
      q' := by
  cases called_of_call hc with
  | readPacket hsize hr ha =>
      have hledger := (h.rationalize hr).accept hsize ha
      simpa [offeredPackets, arrivals, callOpportunities, Nat.not_lt.mpr hsize] using hledger
  | waitTime hr => simpa [offeredPackets, arrivals, callOpportunities] using h.rationalize hr
  | writePackets _ heq =>
      subst heq
      have houtputs : (written ++ q.outputQueue) ++ [] = q.departed.map fun d => d.2.contents := by
        rw [List.append_nil]
        exact h.served.outputs
      have hledger : Ledger accepted (written ++ q.outputQueue) ops { q with outputQueue := [] } :=
        ⟨⟨h.served.logged, h.served.carried, h.served.order, houtputs, h.served.times⟩,
          h.total, h.arrived, ⟨h.sized.queued, h.sized.left_le⟩⟩
      simpa [offeredPackets, arrivals, callOpportunities] using hledger

/-- The whole run keeps the ledger. -/
theorem Ledger.run {world : Nat → Env} : ∀ {calls : List LinkCall} {accepted : List QueuedPacket}
    {written more : List Bytes}
    {ops : List (LinkQueue tr (InfinitePacketQueue W) × LinkQueue tr (InfinitePacketQueue W))}
    {q q' : LinkQueue tr (InfinitePacketQueue W)}, Ledger accepted written ops q →
    LinkQueue.run world calls q = .ok (more, q') →
    Ledger (accepted ++ offeredPackets calls) (written ++ more) (ops ++ opportunities world calls q) q'
  | [], _, _, _, _, _, _, h, hrun => by
      cases hrun
      simpa [offeredPackets, arrivals, opportunities] using h
  | c :: calls, accepted, written, more, ops, q, q', h, hrun => by
      obtain ⟨⟨w, q₁⟩, hc, ⟨w', q₂⟩, hrest, hout⟩ := run_cons_eq_ok.mp hrun
      obtain ⟨rfl, rfl⟩ := Prod.mk.inj hout
      have hrun' := Ledger.run (h.call hc) hrest
      have hoffered : offeredPackets (c :: calls) = offeredPackets [c] ++ offeredPackets calls := by
        cases c <;> rfl
      have hops : opportunities world (c :: calls) q
          = q.callOpportunities world c ++ opportunities world calls q₁ := by
        simp [opportunities, hc]
      rw [hoffered, hops]
      simpa using hrun'

/-! ## No assertion fails -/

/-- What the assertions ask for at an opportunity at time `t`. -/
structure Smooth (t : Nat) (q : LinkQueue tr (InfinitePacketQueue W)) : Prop where
  packets : ∀ p ∈ q.inTransit ++ q.queued, p.arrivalTime ≤ t ∧ 0 < p.size ∧ p.size ≤ packetSize
  left_le : q.packetInTransitBytesLeft ≤ q.packetInTransit.size
  writable : ∀ contents ∈ q.outputQueue, contents ≠ []

/-- The queue of `q'` is that of `q`, or less. -/
def QueueLe (q' q : LinkQueue tr (InfinitePacketQueue W)) : Prop :=
  bytesOf q'.queued ≤ bytesOf q.queued ∧ q'.queued.length ≤ q.queued.length

theorem queueLe_of_suffix {q' q : LinkQueue tr (InfinitePacketQueue W)} (h : q'.queued <:+ q.queued) :
    QueueLe q' q := by
  obtain ⟨gone, hgone⟩ := h
  refine ⟨?_, ?_⟩
  · rw [← hgone, bytesOf_append]
    exact Nat.le_add_left ..
  · rw [← hgone, List.length_append]
    exact Nat.le_add_left ..

theorem smooth_iff_loaded {t : Nat} {q : LinkQueue tr (InfinitePacketQueue W)} :
    q.Smooth t ↔ q.Loaded InfinitePacketQueue.givesFront t :=
  ⟨fun h => ⟨trivial, h.packets, h.left_le, h.writable⟩,
    fun h => ⟨h.packets, h.left_le, h.writable⟩⟩

/-- The link, with what it needs for the packets `coming`. -/
structure Ready (start T : Nat) (coming : List QueuedPacket)
    (q : LinkQueue tr (InfinitePacketQueue W)) : Prop where
  schedule : q.OnSchedule start T
  smooth : q.Smooth q.nextDeliveryTime
  fits_bytes : W.Fits (bytesOf q.queued + bytesOf coming)
  fits_packets : W.Fits (q.queued.length + coming.length)

theorem Ready.rationalize {start T now : Nat} (world : Nat → Env) {coming : List QueuedPacket}
    {q : LinkQueue tr (InfinitePacketQueue W)} (hwrap : tr.NoWraparound start T) (hnow : now ≤ T)
    (h : Ready start T coming q) :
    ∃ q', q.rationalize world now = .ok q' ∧ Ready start T coming q' ∧ now < q'.nextDeliveryTime := by
  obtain ⟨q', hr, hschedule, hloaded, hlt, hsuffix⟩ :=
    (smooth_iff_loaded.mp h.smooth).rationalize world hwrap hnow h.schedule
  obtain ⟨hbytes, hpackets⟩ := queueLe_of_suffix hsuffix
  exact ⟨q', hr, ⟨hschedule, smooth_iff_loaded.mpr hloaded,
    h.fits_bytes.mono (Nat.add_le_add_right hbytes _),
    h.fits_packets.mono (Nat.add_le_add_right hpackets _)⟩, hlt⟩

theorem Ready.accept {start T now : Nat} {contents : Bytes} {coming : List QueuedPacket}
    {q : LinkQueue tr (InfinitePacketQueue W)} (h : Ready start T (⟨now, contents⟩ :: coming) q)
    (env : Env) (hnow : now < q.nextDeliveryTime) (hpos : 0 < contents.length)
    (hsize : contents.length ≤ packetSize) :
    ∃ q', q.accept now contents env = .ok q' ∧ Ready start T coming q' := by
  have hbytes := h.fits_bytes
  have hpackets := h.fits_packets
  have hps : (⟨now, contents⟩ : QueuedPacket).size = contents.length := rfl
  rw [bytesOf_cons, hps] at hbytes
  rw [List.length_cons] at hpackets
  have hpush : (q.packetQueue.enqueue ⟨now, contents⟩).store.internalQueue
      = q.queued ++ [⟨now, contents⟩] := rfl
  have hb : AbstractPacketQueue.sizeBytes q.packetQueue = .ok (bytesOf q.queued) :=
    CountedQueue.sizeBytes_of_fits (hbytes.mono (Nat.le_add_right ..))
  have hp : AbstractPacketQueue.sizePackets q.packetQueue = .ok q.queued.length :=
    CountedQueue.sizePackets_of_fits (hpackets.mono (Nat.le_add_right ..))
  have hb' : AbstractPacketQueue.sizeBytes (q.packetQueue.enqueue ⟨now, contents⟩)
      = .ok (bytesOf q.queued + contents.length) := by
    have hsum : bytesOf (q.queued ++ [⟨now, contents⟩]) = bytesOf q.queued + contents.length := by
      simp [QueuedPacket.size]
    have hfits : W.Fits (bytesOf (q.packetQueue.enqueue ⟨now, contents⟩).store.internalQueue) := by
      rw [hpush, hsum]
      exact hbytes.mono (by omega)
    exact (CountedQueue.sizeBytes_of_fits hfits).trans (by rw [hpush, hsum])
  have hp' : AbstractPacketQueue.sizePackets (q.packetQueue.enqueue ⟨now, contents⟩)
      = .ok (q.queued.length + 1) := by
    have hfits : W.Fits (q.packetQueue.enqueue ⟨now, contents⟩).store.internalQueue.length := by
      rw [hpush, List.length_append, List.length_singleton]
      exact hpackets.mono (by omega)
    exact (CountedQueue.sizePackets_of_fits hfits).trans (by rw [hpush]; simp)
  refine ⟨{ q with
    packetQueue := q.packetQueue.enqueue ⟨now, contents⟩
    records := q.records ++ [.arrival now contents.length] }, ?_, ?_⟩
  · have henq : AbstractPacketQueue.enqueue env q.packetQueue ⟨now, contents⟩
        = .ok (q.packetQueue.enqueue ⟨now, contents⟩) := rfl
    simp [LinkQueue.accept, record, hb, hp, henq, hb', hp']
  · refine ⟨h.schedule, ⟨fun p hmem => ?_, h.smooth.left_le, h.smooth.writable⟩, ?_, ?_⟩
    · rcases List.mem_append.mp hmem with hmem | hmem
      · exact h.smooth.packets p (List.mem_append_left _ hmem)
      · rcases List.mem_append.mp hmem with hmem | hmem
        · exact h.smooth.packets p (List.mem_append_right _ hmem)
        · obtain rfl := List.mem_singleton.mp hmem
          exact ⟨Nat.le_of_lt hnow, hpos, hsize⟩
    · refine hbytes.mono ?_
      simp only [LinkQueue.queued, hpush]
      simp only [bytesOf_append, bytesOf_cons, bytesOf_nil, hps]
      omega
    · refine hpackets.mono ?_
      simp only [LinkQueue.queued, hpush]
      simp only [List.length_append, List.length_cons, List.length_nil]
      omega

/-- A run of packets of the right sizes comes to its end. -/
theorem run_ready {start T : Nat} (world : Nat → Env) (hwrap : tr.NoWraparound start T) :
    ∀ (calls : List LinkCall) {q : LinkQueue tr (InfinitePacketQueue W)},
    Ready start T (offeredPackets calls) q → (∀ t ∈ clockReadings calls, t ≤ T) →
    (∀ p ∈ offeredPackets calls, 0 < p.size ∧ p.size ≤ packetSize) →
    ∃ out, run world calls q = .ok out
  | [], q, _, _, _ => ⟨([], q), rfl⟩
  | .readPacket now contents env :: calls, q, h, hclock, hsizes => by
      obtain ⟨hpos, hsize⟩ := hsizes ⟨now, contents⟩ (List.mem_cons_self ..)
      obtain ⟨q₁, hr, h₁, hnow⟩ := h.rationalize world hwrap (hclock now (List.mem_cons_self ..))
      obtain ⟨q₂, ha, h₂⟩ := h₁.accept env hnow hpos hsize
      obtain ⟨out, hrun⟩ := run_ready world hwrap calls h₂
        (fun t ht => hclock t (List.mem_cons_of_mem _ ht))
        (fun p hp => hsizes p (List.mem_cons_of_mem _ hp))
      refine ⟨([] ++ out.1, out.2), run_cons_eq_ok.mpr ⟨([], q₂), ?_, out, hrun, rfl⟩⟩
      have hread := readPacket_eq_ok.mpr ⟨hsize, q₁, hr, ha⟩
      simp [call, hread]
  | .waitTime now :: calls, q, h, hclock, hsizes => by
      obtain ⟨q₁, hr, h₁, -⟩ := h.rationalize world hwrap (hclock now (List.mem_cons_self ..))
      obtain ⟨out, hrun⟩ := run_ready world hwrap calls h₁
        (fun t ht => hclock t (List.mem_cons_of_mem _ ht)) hsizes
      refine ⟨([] ++ out.1, out.2), run_cons_eq_ok.mpr ⟨([], q₁), ?_, out, hrun, rfl⟩⟩
      simp [call, waitTime, hr]
  | .writePackets :: calls, q, h, hclock, hsizes => by
      obtain ⟨out, hrun⟩ := run_ready world hwrap calls (q := { q with outputQueue := [] })
        ⟨h.schedule, ⟨h.smooth.packets, h.smooth.left_le, by simp⟩, h.fits_bytes, h.fits_packets⟩
        hclock hsizes
      refine ⟨(q.outputQueue ++ out.1, out.2),
        run_cons_eq_ok.mpr ⟨(q.outputQueue, _), ?_, out, hrun, rfl⟩⟩
      have hany : q.outputQueue.any (·.isEmpty) = false := by
        simpa using h.smooth.writable
      simp [call, writePackets, hany]

/-- The service law of the link with an infinite queue: it holds of every run
that comes to an end, and every run within bounds does. -/
theorem run_served (W : Arith) (tr : Trace) (start : Nat) (world : Nat → Env)
    (calls : List LinkCall) :
    (∀ written q, run world calls (initial tr (InfinitePacketQueue.initial W) start) = .ok (written, q) →
      Served (offeredPackets calls) written
        (opportunities world calls (initial tr (InfinitePacketQueue.initial W) start)) q) ∧
    (∀ T, tr.NoWraparound start T → (∀ t ∈ clockReadings calls, t ≤ T) →
      (∀ p ∈ offeredPackets calls, 0 < p.size ∧ p.size ≤ packetSize) →
      W.Fits (bytesOf (offeredPackets calls)) → W.Fits (offeredPackets calls).length →
      ∃ written q, run world calls (initial tr (InfinitePacketQueue.initial W) start)
        = .ok (written, q)) := by
  refine ⟨fun written q hrun => ?_, fun T hwrap hclock hsizes hbytes hpackets => ?_⟩
  · simpa using ((ledger_initial tr W start).run hrun).served
  · have hready : Ready start T (offeredPackets calls)
        (initial tr (InfinitePacketQueue.initial W) start) := by
      refine ⟨onSchedule_initial tr _ start T, ⟨fun p hp => ?_, Nat.le_refl _, ?_⟩, ?_, ?_⟩
      · simp [inTransit, initial, queued, InfinitePacketQueue.initial] at hp
      · simp [initial]
      · simpa [queued, initial, InfinitePacketQueue.initial] using hbytes
      · simpa [queued, initial, InfinitePacketQueue.initial] using hpackets
    obtain ⟨out, hrun⟩ := run_ready world hwrap calls hready hclock hsizes
    exact ⟨out.1, out.2, hrun⟩

/-- Two packets of 1,000 bytes that come at once, and the link polled three times. -/
def twoAtOnce : List LinkCall :=
  [.readPacket 0 (List.replicate 1000 1) ⟨0, 0, 0⟩, .readPacket 0 (List.replicate 1000 2) ⟨0, 0, 0⟩,
    .waitTime 1, .writePackets, .waitTime 3]

/-- With an opportunity every millisecond the first packet leaves at 1, with 504 bytes of
the second, and the second at 2. -/
theorem run_served_twoAtOnce :
    ∃ written q, run (fun _ => ⟨0, 0, 0⟩) twoAtOnce
        (initial everyMs (InfinitePacketQueue.initial .machine) 0) = .ok (written, q) ∧
      Served (offeredPackets twoAtOnce) written (opportunities (fun _ => ⟨0, 0, 0⟩) twoAtOnce
        (initial everyMs (InfinitePacketQueue.initial .machine) 0)) q ∧
      q.departed.map Prod.fst = [1, 2] := by
  obtain ⟨hserved, hends⟩ := run_served .machine everyMs 0 (fun _ => ⟨0, 0, 0⟩) twoAtOnce
  obtain ⟨written, q, hrun⟩ := hends 3 (.of_lt (by decide) (by decide)) (by decide)
    (by decide +kernel) (by decide +kernel) (by decide)
  refine ⟨written, q, hrun, hserved written q hrun, ?_⟩
  have htimes : (run (fun _ => ⟨0, 0, 0⟩) twoAtOnce
      (initial everyMs (InfinitePacketQueue.initial .machine) 0)).toOption.map
        (fun r => r.2.departed.map Prod.fst) = some [1, 2] := by decide +kernel
  rw [hrun] at htimes
  exact Option.some.inj htimes

end LinkQueue

end Mahimahi
