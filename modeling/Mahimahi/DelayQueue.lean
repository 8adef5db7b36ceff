import Mathlib.Order.Nat
import Mahimahi.Machine
import Mahimahi.PriorityQueue

/-!
# The two delay queues

`DelayQueue` holds every packet for the same time, in a FIFO.
`AdvDelayQueue` looks into each packet for a rule that gives it a delay of
its own, and keeps the packets in a priority queue ordered by release time.
The priority queue is a parameter: any that keeps the promise of the
standard will do.

When no rule matches the two should be one. `outputs_eq_iff` says when they
are, whatever the priority queue: each packet must pass the checks that
only `AdvDelayQueue` makes (`Accepted`), and whenever `write_packets` looks
for a packet, those that it may find on top must all be the packet that has
waited longest (`Unambiguous`). Given both, the two hold the same packets up
to their order; without the second, a priority queue that avoids the oldest
element writes another packet.
-/

namespace Mahimahi

/-! ## What the two have in common -/

/-- A release time and the contents of a packet. -/
abbrev DelayPktPair := Nat × Bytes

/-- A priority queue of packets, the earliest release time on top. -/
abbrev ReleaseQueue := PriorityQueue (Prod.fst : DelayPktPair → Nat)

/-- `FileDescriptor::write`. -/
def write (contents : Bytes) : Except Fault Bytes :=
  if contents.isEmpty then .error (.runtimeError "nothing to write") else .ok contents

/-- A call that the ferry makes, with the clock: `write_packets` reads it
once for each test of its loop. -/
inductive FerryCall where
  | readPacket (now : Nat) (contents : Bytes)
  | writePackets (clock : Nat → Nat)

/-- What the ferry needs of a queue. -/
class FerryQueue (Q : Type) where
  readPacket : Nat → Bytes → Q → Except Fault Q
  writePackets : (Nat → Nat) → Q → Except Fault (List Bytes × Q)

/-- What each call of a run writes, up to the first call that throws. -/
def outputs {Q : Type} [FerryQueue Q] : List FerryCall → Q → List (Except Fault (List Bytes))
  | [], _ => []
  | .readPacket now contents :: calls, q =>
      match FerryQueue.readPacket now contents q with
      | .error f => [.error f]
      | .ok q' => .ok [] :: outputs calls q'
  | .writePackets clock :: calls, q =>
      match FerryQueue.writePackets clock q with
      | .error f => [.error f]
      | .ok (written, q') => .ok written :: outputs calls q'

/-- The packets a run reads. -/
def packetsRead : List FerryCall → List Bytes
  | [] => []
  | .readPacket _ contents :: calls => contents :: packetsRead calls
  | .writePackets _ :: calls => packetsRead calls

/-- The clock readings of the `read_packet` calls of a run. -/
def readTimes : List FerryCall → List Nat
  | [] => []
  | .readPacket now _ :: calls => now :: readTimes calls
  | .writePackets _ :: calls => readTimes calls

/-! ## DelayQueue -/

structure DelayQueue where
  delayMs : Nat
  packetQueue : List DelayPktPair

namespace DelayQueue

def initial (delayMs : Nat) : DelayQueue := ⟨delayMs, []⟩

def readPacket (now : Nat) (contents : Bytes) (q : DelayQueue) : DelayQueue :=
  { q with packetQueue := q.packetQueue ++ [(u64 (now + q.delayMs), contents)] }

/-- The loop of `write_packets`, from its `k`-th test on. -/
def writeLoop (clock : Nat → Nat) : Nat → List DelayPktPair →
    Except Fault (List Bytes × List DelayPktPair)
  | _, [] => .ok ([], [])
  | k, front :: rest =>
      if front.1 ≤ clock k then do
        let contents ← write front.2
        let (written, left) ← writeLoop clock (k + 1) rest
        return (contents :: written, left)
      else .ok ([], front :: rest)

def writePackets (clock : Nat → Nat) (q : DelayQueue) : Except Fault (List Bytes × DelayQueue) := do
  let (written, left) ← writeLoop clock 0 q.packetQueue
  return (written, { q with packetQueue := left })

instance : FerryQueue DelayQueue where
  readPacket now contents q := .ok (q.readPacket now contents)
  writePackets clock q := q.writePackets clock

end DelayQueue

/-! ## Delay rules -/

/-- `DelayRule`: the members that decide a delay. -/
structure DelayRule where
  ip : Nat
  port : Nat
  fwdDelay : Nat
  revDelay : Nat
  fwdLim : Nat
  fwdAltDelay : Nat
  revLim : Nat
  revAltDelay : Nat

namespace DelayRule

def wildcardPort : Nat := 0

end DelayRule

abbrev PortRules := List (Nat × DelayRule)
abbrev IPRules := List (Nat × PortRules)
/-- The rules by protocol, then by address, then by port. -/
abbrev DelayRules := List (Nat × IPRules)

def ipprotoIcmp : Nat := 1
def ipprotoTcp : Nat := 6
def ipprotoUdp : Nat := 17

/-! ## What is read of a packet

The packet information takes the first four bytes; the IP header follows. -/

def byteAt (pkt : Bytes) (i : Nat) : Except Fault Nat :=
  match pkt[i]? with
  | some b => .ok b.toNat
  | none => .error .outOfBounds

/-- `ntohs` of the two bytes at `i`. -/
def ntohs (pkt : Bytes) (i : Nat) : Except Fault Nat := do
  let hi ← byteAt pkt i
  let lo ← byteAt pkt (i + 1)
  return 2 ^ 8 * hi + lo

/-- The four bytes at `i`, as the little-endian `uint32_t` they are read as. -/
def word (pkt : Bytes) (i : Nat) : Except Fault Nat := do
  let b0 ← byteAt pkt i
  let b1 ← byteAt pkt (i + 1)
  let b2 ← byteAt pkt (i + 2)
  let b3 ← byteAt pkt (i + 3)
  return b0 + 2 ^ 8 * b1 + 2 ^ 16 * b2 + 2 ^ 24 * b3

/-- `h->version`. -/
def version (pkt : Bytes) : Except Fault Nat := do
  return (← byteAt pkt 4) / 2 ^ 4

/-- `h->protocol`. -/
def protocol (pkt : Bytes) : Except Fault Nat := byteAt pkt (4 + 9)

/-- `uplink_ ? h->daddr : h->saddr`. -/
def address (uplink : Bool) (pkt : Bytes) : Except Fault Nat :=
  word pkt (if uplink then 4 + 16 else 4 + 12)

/-- The port that the TCP and the UDP header have in one place. -/
def port (uplink : Bool) (pkt : Bytes) : Except Fault Nat := do
  let transport := 4 + (← byteAt pkt 4) % 2 ^ 4 * 4
  ntohs pkt (if uplink then transport + 2 else transport)

/-! ## AdvDelayQueue -/

/-- `AdvDelayQueue`. The counters are those of every address and port. -/
structure AdvDelayQueue (K : ReleaseQueue) where
  delayMs : Nat
  packetQueue : K.Carrier
  rules : DelayRules
  byteCounters : Nat → Nat → Nat
  pktCounters : Nat → Nat → Nat
  uplink : Bool
  numBytes : Nat

namespace AdvDelayQueue

variable {K : ReleaseQueue}

def initial (K : ReleaseQueue) (delayMs : Nat)
    (rules : DelayRules) (uplink : Bool) : AdvDelayQueue K where
  delayMs := delayMs
  packetQueue := K.empty
  rules := rules
  byteCounters := fun _ _ => 0
  pktCounters := fun _ _ => 0
  uplink := uplink
  numBytes := 0

/-- `counters[ip][port] += n`. -/
def addTo (counters : Nat → Nat → Nat) (ip port n : Nat) : Nat → Nat → Nat := fun ip' port' =>
  if ip' = ip ∧ port' = port then u64 (counters ip port + n) else counters ip' port'

def getDelayForTcp (q : AdvDelayQueue K) (portRules : PortRules) (pkt : Bytes) (sz : Nat) :
    Except Fault (Nat × AdvDelayQueue K) := do
  match portRules.lookup (← port q.uplink pkt) with
  | none => return (q.delayMs, q)
  | some rule =>
      let bytesSent := q.byteCounters rule.ip rule.port
      let q' := { q with
        byteCounters := addTo q.byteCounters rule.ip rule.port sz
        pktCounters := addTo q.pktCounters rule.ip rule.port 1 }
      if q.uplink then
        return (if bytesSent < rule.fwdLim then rule.fwdDelay else rule.fwdAltDelay, q')
      else
        return (if bytesSent < rule.revLim then rule.revDelay else rule.revAltDelay, q')

/-- The delay of a rule without a limit. -/
def ruleDelay (q : AdvDelayQueue K) (rule : DelayRule) : Nat :=
  if q.uplink then rule.fwdDelay else rule.revDelay

def getDelayForUdp (q : AdvDelayQueue K) (portRules : PortRules) (pkt : Bytes) :
    Except Fault Nat := do
  match portRules.lookup (← port q.uplink pkt) with
  | none => return q.delayMs
  | some rule => return q.ruleDelay rule

def getDelayForIpv4 (q : AdvDelayQueue K) (pkt : Bytes) (sz : Nat) :
    Except Fault (Nat × AdvDelayQueue K) := do
  let proto ← protocol pkt
  match q.rules.lookup proto with
  | none => return (q.delayMs, q)
  | some ipRules =>
      match ipRules.lookup (← address q.uplink pkt) with
      | none => return (q.delayMs, q)
      | some portRules =>
          match portRules.lookup 0 with
          | some rule => return (q.ruleDelay rule, q)
          | none =>
              if proto = ipprotoIcmp then
                -- `at` throws here: the wild card rule has just been looked for
                match portRules.lookup DelayRule.wildcardPort with
                | some rule => return (q.ruleDelay rule, q)
                | none => throw .outOfRange
              else if proto = ipprotoTcp then q.getDelayForTcp portRules pkt sz
              else if proto = ipprotoUdp then return (← q.getDelayForUdp portRules pkt, q)
              else return (q.delayMs, q)

def getDelayForIpv6 (q : AdvDelayQueue K) (pkt : Bytes) (sz : Nat) : Except Fault Nat := do
  if (← protocol pkt) ≠ 6 then
    throw (.runtimeErrorWith "Data (sz: " (ascii (toString sz) ++ ascii ") is not an IPv6 packet!"))
  return q.delayMs

def getDelayFor (q : AdvDelayQueue K) (pkt : Bytes) (sz : Nat) :
    Except Fault (Nat × AdvDelayQueue K) := do
  if (← version pkt) ≠ 4 then return (← q.getDelayForIpv6 pkt sz, q)
  else q.getDelayForIpv4 pkt sz

def readPacket (now : Nat) (contents : Bytes) (q : AdvDelayQueue K) :
    Except Fault (AdvDelayQueue K) := do
  let q := { q with numBytes := u64 (q.numBytes + contents.length) }
  -- what is thrown is a pointer to the exception
  if contents.length < 20 then throw (.runtimeError "Packet too small!")
  let (pktDelay, q) ← q.getDelayFor contents contents.length
  return { q with packetQueue := K.emplace (u64 (now + pktDelay), contents) q.packetQueue }

/-- The loop of `write_packets`, from its `k`-th test on. -/
def writeLoop (K : ReleaseQueue) (clock : Nat → Nat) :
    Nat → Nat → K.Carrier → Except Fault (List Bytes × K.Carrier)
  | 0, _, _ => .error .diverges
  | n + 1, k, packets =>
      match K.top packets with
      | none => .ok ([], packets)
      | some top =>
          if top.1 ≤ clock k then do
            let contents ← write top.2
            let (written, left) ← writeLoop K clock n (k + 1) (K.pop packets)
            return (contents :: written, left)
          else .ok ([], packets)

def writePackets (clock : Nat → Nat) (q : AdvDelayQueue K) :
    Except Fault (List Bytes × AdvDelayQueue K) := do
  let (written, left) ← writeLoop K clock ((K.elements q.packetQueue).length + 1) 0 q.packetQueue
  return (written, { q with packetQueue := left })

instance : FerryQueue (AdvDelayQueue K) where
  readPacket now contents q := q.readPacket now contents
  writePackets clock q := q.writePackets clock

end AdvDelayQueue

/-! ## Packets that no rule matches -/

/-- No delay rule matches the packet: what the search for one reads of it is
there, and the search finds none. For ICMP the ports do not matter. -/
def NoRuleMatches (rules : DelayRules) (uplink : Bool) (pkt : Bytes) : Prop :=
  version pkt = .ok 4 → ∀ proto ipRules, protocol pkt = .ok proto →
    rules.lookup proto = some ipRules →
    ∃ addr, address uplink pkt = .ok addr ∧ ∀ portRules, ipRules.lookup addr = some portRules →
      portRules.lookup DelayRule.wildcardPort = none ∧ proto ≠ ipprotoIcmp ∧
      (proto = ipprotoTcp ∨ proto = ipprotoUdp →
        ∃ p, port uplink pkt = .ok p ∧ portRules.lookup p = none)

/-- The checks that only `AdvDelayQueue` makes: the packet is large enough
for an IP header, and it is IPv4 or has a 6 where the protocol would be. -/
def Accepted (pkt : Bytes) : Prop :=
  20 ≤ pkt.length ∧ (version pkt = .ok 4 ∨ protocol pkt = .ok 6)

namespace AdvDelayQueue

variable {K : ReleaseQueue}

theorem getDelayForIpv4_of_noRuleMatches {q : AdvDelayQueue K} {pkt : Bytes} {proto : Nat} (sz : Nat)
    (hv : version pkt = .ok 4) (hp : protocol pkt = .ok proto)
    (hrules : NoRuleMatches q.rules q.uplink pkt) :
    q.getDelayForIpv4 pkt sz = .ok (q.delayMs, q) := by
  simp only [getDelayForIpv4, hp, ok_bind]
  cases hproto : q.rules.lookup proto with
  | none => rfl
  | some ipRules =>
      obtain ⟨addr, haddr, hport⟩ := hrules hv proto ipRules hp hproto
      simp only [haddr, ok_bind]
      cases hip : ipRules.lookup addr with
      | none => rfl
      | some portRules =>
          obtain ⟨hwild, hicmp, htransport⟩ := hport portRules hip
          have hwild : portRules.lookup 0 = none := hwild
          simp only [hwild, if_neg hicmp]
          by_cases htcp : proto = ipprotoTcp
          · obtain ⟨p, hp, hnone⟩ := htransport (.inl htcp)
            simp [htcp, getDelayForTcp, hp, hnone]
          · by_cases hudp : proto = ipprotoUdp
            · obtain ⟨p, hp, hnone⟩ := htransport (.inr hudp)
              simp [hudp, getDelayForUdp, hp, hnone, ipprotoUdp, ipprotoTcp]
            · simp [htcp, hudp]

theorem byteAt_eq_ok (pkt : Bytes) (i : Nat) (h : i < pkt.length) : ∃ b, byteAt pkt i = .ok b := by
  simp [byteAt, List.getElem?_eq_getElem h]

/-- The plain delay for a packet that passes the checks, and an exception for
one that does not. -/
theorem getDelayFor_of_noRuleMatches {q : AdvDelayQueue K} {pkt : Bytes} (sz : Nat)
    (hsize : 20 ≤ pkt.length) (hrules : NoRuleMatches q.rules q.uplink pkt) :
    (Accepted pkt → q.getDelayFor pkt sz = .ok (q.delayMs, q)) ∧
      (¬ Accepted pkt → ∃ f, q.getDelayFor pkt sz = .error f) := by
  obtain ⟨b, hb⟩ := byteAt_eq_ok pkt 4 (by omega)
  obtain ⟨proto, hproto⟩ := byteAt_eq_ok pkt (4 + 9) (by omega)
  obtain ⟨v, hv⟩ : ∃ v, version pkt = .ok v := ⟨b / 2 ^ 4, by simp [version, hb]⟩
  have hp : protocol pkt = .ok proto := hproto
  simp only [Accepted, hsize, true_and, getDelayFor, hv, hp, ok_bind, Except.ok.injEq]
  by_cases hfour : v = 4
  · have hplain := getDelayForIpv4_of_noRuleMatches sz (hv.trans (by rw [hfour])) hp hrules
    simp [hfour, hplain]
  · by_cases hsix : proto = 6
    · simp [hfour, hsix, getDelayForIpv6, hp]
    · simp [hfour, hsix, getDelayForIpv6, hp]

theorem readPacket_of_accepted {q : AdvDelayQueue K} {contents : Bytes} (now : Nat)
    (hrules : NoRuleMatches q.rules q.uplink contents) (hacc : Accepted contents) :
    q.readPacket now contents = .ok { q with
      numBytes := u64 (q.numBytes + contents.length)
      packetQueue := K.emplace (u64 (now + q.delayMs), contents) q.packetQueue } := by
  have h := (getDelayFor_of_noRuleMatches contents.length hacc.1
    (q := { q with numBytes := u64 (q.numBytes + contents.length) }) hrules).1 hacc
  simp [readPacket, Nat.not_lt.mpr hacc.1, h]

theorem readPacket_of_not_accepted {q : AdvDelayQueue K} {contents : Bytes} (now : Nat)
    (hrules : NoRuleMatches q.rules q.uplink contents) (hacc : ¬ Accepted contents) :
    ∃ f, q.readPacket now contents = .error f := by
  by_cases hsize : contents.length < 20
  · exact ⟨.runtimeError "Packet too small!", by simp only [readPacket, if_pos hsize]; rfl⟩
  · obtain ⟨f, hf⟩ := (getDelayFor_of_noRuleMatches contents.length (Nat.le_of_not_lt hsize)
      (q := { q with numBytes := u64 (q.numBytes + contents.length) }) hrules).2 hacc
    exact ⟨f, by simp [readPacket, hsize, hf]⟩

end AdvDelayQueue

/-! ## When the two are one -/

/-- Of the packets queued, those that `write_packets` may find on top, and due,
are all the one at the front: there is no other packet with its release time. -/
def Unambiguous (t : Nat) (q : List DelayPktPair) : Prop :=
  ∀ x ∈ q, (∀ y ∈ q, x.1 ≤ y.1) → x.1 ≤ t → q.head? = some x

/-- Every test of the loop in `write_packets`, from the `k`-th on, is made on
an unambiguous queue. -/
def PlainTurns (clock : Nat → Nat) : Nat → List DelayPktPair → Prop
  | _, [] => True
  | k, front :: rest =>
      Unambiguous (clock k) (front :: rest) ∧ (front.1 ≤ clock k → PlainTurns clock (k + 1) rest)

/-- A run of `DelayQueue` that gives `AdvDelayQueue` no reason to differ. -/
def PlainRun : List FerryCall → DelayQueue → Prop
  | [], _ => True
  | .readPacket now contents :: calls, q =>
      Accepted contents ∧ PlainRun calls (q.readPacket now contents)
  | .writePackets clock :: calls, q =>
      PlainTurns clock 0 q.packetQueue ∧
        ∀ written q', q.writePackets clock = .ok (written, q') → PlainRun calls q'

instance (t : Nat) (q : List DelayPktPair) : Decidable (Unambiguous t q) :=
  inferInstanceAs (Decidable (∀ x ∈ q, (∀ y ∈ q, x.1 ≤ y.1) → x.1 ≤ t → q.head? = some x))

instance PlainTurns.decidable (clock : Nat → Nat) : ∀ k q, Decidable (PlainTurns clock k q)
  | _, [] => inferInstanceAs (Decidable True)
  | k, front :: rest =>
      have := PlainTurns.decidable clock (k + 1) rest
      inferInstanceAs (Decidable (Unambiguous _ (front :: rest) ∧ (_ → _)))

instance PlainRun.decidable : ∀ calls q, Decidable (PlainRun calls q)
  | [], _ => inferInstanceAs (Decidable True)
  | .readPacket now contents :: calls, q =>
      have := PlainRun.decidable calls (q.readPacket now contents)
      inferInstanceAs (Decidable ((_ ∧ _) ∧ _))
  | .writePackets clock :: calls, q =>
      have : Decidable (∀ written q', q.writePackets clock = .ok (written, q') →
          PlainRun calls q') :=
        match q.writePackets clock with
        | .error _ => .isTrue (fun _ _ h => nomatch h)
        | .ok (_, q') =>
            have := PlainRun.decidable calls q'
            decidable_of_iff (PlainRun calls q') (by simp)
      inferInstanceAs (Decidable (_ ∧ _))

/-- `a` holds the packets of `q`, whatever their order. -/
structure SamePackets {K : ReleaseQueue} (rules : DelayRules) (uplink : Bool)
    (a : AdvDelayQueue K) (q : DelayQueue) : Prop where
  rules : a.rules = rules
  uplink : a.uplink = uplink
  delayMs : a.delayMs = q.delayMs
  packets : (K.elements a.packetQueue).Perm q.packetQueue

/-- One loop of `write_packets` over an unambiguous queue: the priority queue
writes what the FIFO writes, and the same packets are left. -/
theorem writeLoop_of_plainTurns {K : ReleaseQueue} {clock : Nat → Nat} :
    ∀ {n k : Nat} {packets : K.Carrier} {q : List DelayPktPair},
    (K.elements packets).Perm q → q.length < n → PlainTurns clock k q →
    match DelayQueue.writeLoop clock k q with
    | .error f => AdvDelayQueue.writeLoop K clock n k packets = .error f
    | .ok (written, left) => ∃ packets', (K.elements packets').Perm left ∧
        AdvDelayQueue.writeLoop K clock n k packets = .ok (written, packets')
  | 0, _, _, _, _, hn, _ => absurd hn (Nat.not_lt_zero _)
  | n + 1, k, packets, [], hperm, _, _ => by
      have htop : K.top packets = none := (K.top_eq_none packets).mpr hperm.eq_nil
      simp only [DelayQueue.writeLoop, AdvDelayQueue.writeLoop, htop]
      exact ⟨packets, hperm, rfl⟩
  | n + 1, k, packets, front :: rest, hperm, hn, ⟨hplain, hrest⟩ => by
      cases htop : K.top packets with
      | none =>
          rw [K.top_eq_none] at htop
          simp [htop] at hperm
      | some top =>
          have hmem : top ∈ front :: rest :=
            hperm.subset ((K.pop_perm packets top htop).symm.subset (List.mem_cons_self ..))
          have hleast : ∀ y ∈ front :: rest, top.1 ≤ y.1 := fun y hy =>
            K.top_le packets top htop y (hperm.symm.subset hy)
          rw [DelayQueue.writeLoop, AdvDelayQueue.writeLoop]
          simp only [htop]
          by_cases hdue : top.1 ≤ clock k
          · obtain rfl : front = top := by simpa using hplain top hmem hleast hdue
            have hpop : (K.elements (K.pop packets)).Perm rest :=
              ((K.pop_perm packets front htop).symm.trans hperm).cons_inv
            have ih := writeLoop_of_plainTurns hpop (Nat.lt_of_succ_lt_succ hn) (hrest hdue)
            rw [if_pos hdue, if_pos hdue]
            cases hw : write front.2 with
            | error f => rfl
            | ok contents =>
                simp only [ok_bind]
                cases hl : DelayQueue.writeLoop clock (k + 1) rest with
                | error f =>
                    rw [hl] at ih
                    simp [ih]
                | ok r =>
                    rw [hl] at ih
                    obtain ⟨packets', hperm', ih⟩ := ih
                    simpa [ih] using hperm'
          · have hfront : ¬ front.1 ≤ clock k := fun h =>
              hdue (Nat.le_trans (hleast front (List.mem_cons_self ..)) h)
            rw [if_neg hdue, if_neg hfront]
            exact ⟨packets, hperm, rfl⟩

/-- Along a plain run, every priority queue gives the outputs of the FIFO. -/
theorem outputs_of_plainRun {K : ReleaseQueue} {rules : DelayRules} {uplink : Bool} :
    ∀ {calls : List FerryCall} {a : AdvDelayQueue K} {q : DelayQueue},
    SamePackets rules uplink a q →
    (∀ pkt ∈ packetsRead calls, NoRuleMatches rules uplink pkt) → PlainRun calls q →
    outputs calls a = outputs calls q
  | [], _, _, _, _, _ => rfl
  | .readPacket now contents :: calls, a, q, h, hrules, ⟨hacc, hplain⟩ => by
      obtain ⟨rfl, rfl, hdelay, hperm⟩ := h
      have hread := AdvDelayQueue.readPacket_of_accepted now
        (hrules contents (List.mem_cons_self ..)) hacc
      have hsame : (K.elements (K.emplace (u64 (now + a.delayMs), contents) a.packetQueue)).Perm
          (q.readPacket now contents).packetQueue := by
        refine (K.emplace_perm ..).trans ((hperm.cons _).trans ?_)
        simpa [DelayQueue.readPacket, hdelay] using (List.perm_append_singleton _ _).symm
      simp only [outputs, FerryQueue.readPacket, hread]
      exact congrArg _ (outputs_of_plainRun ⟨rfl, rfl, hdelay, hsame⟩
        (fun pkt hpkt => hrules pkt (List.mem_cons_of_mem _ hpkt)) hplain)
  | .writePackets clock :: calls, a, q, h, hrules, ⟨hturns, hplain⟩ => by
      have hloop := writeLoop_of_plainTurns (n := (K.elements a.packetQueue).length + 1) h.packets
        (by rw [h.packets.length_eq]; omega) hturns
      simp only [outputs, FerryQueue.writePackets, AdvDelayQueue.writePackets,
        DelayQueue.writePackets] at hplain ⊢
      cases hl : DelayQueue.writeLoop clock 0 q.packetQueue with
      | error f =>
          rw [hl] at hloop
          simp [hloop]
      | ok r =>
          obtain ⟨written, left⟩ := r
          rw [hl] at hloop hplain
          obtain ⟨packets', hperm', hloop⟩ := hloop
          simp only [hloop, ok_bind, pure_eq_ok]
          exact congrArg _ (outputs_of_plainRun ⟨h.rules, h.uplink, h.delayMs, hperm'⟩ hrules
            (hplain written _ rfl))

/-! ## The other direction

`contrary` holds its packets in the order of the FIFO for as long as it is
given no choice. The release times are in that order too, since the clock
does not go back and no release time wraps around. -/

/-- The packets are in the order of their release times and can be written. -/
structure InOrder (q : List DelayPktPair) : Prop where
  sorted : q.Pairwise fun x y => x.1 ≤ y.1
  writable : ∀ x ∈ q, x.2 ≠ []

theorem InOrder.tail {front : DelayPktPair} {rest : List DelayPktPair}
    (h : InOrder (front :: rest)) : InOrder rest :=
  ⟨h.sorted.of_cons, fun x hx => h.writable x (List.mem_cons_of_mem _ hx)⟩

theorem InOrder.concat {q : List DelayPktPair} {release : Nat} {contents : Bytes} (h : InOrder q)
    (hrelease : ∀ x ∈ q, x.1 ≤ release) (hne : contents ≠ []) :
    InOrder (q ++ [(release, contents)]) := by
  constructor
  · refine List.pairwise_append.mpr ⟨h.sorted, List.pairwise_singleton _ _, ?_⟩
    intro x hx y hy
    obtain rfl := List.mem_singleton.mp hy
    exact hrelease x hx
  · intro x hx
    rcases List.mem_append.mp hx with hx | hx
    · exact h.writable x hx
    · obtain rfl := List.mem_singleton.mp hx
      exact hne

theorem write_eq_ok {contents : Bytes} (h : contents ≠ []) : write contents = .ok contents := by
  cases contents with
  | nil => exact absurd rfl h
  | cons b bs => rfl

theorem delay_writeLoop_ok (clock : Nat → Nat) : ∀ (k : Nat) {q : List DelayPktPair}, InOrder q →
    ∃ written left, DelayQueue.writeLoop clock k q = .ok (written, left) ∧ InOrder left ∧
      ∀ x ∈ left, x ∈ q
  | k, [], _ => ⟨[], [], rfl, ⟨.nil, by simp⟩, by simp⟩
  | k, front :: rest, h => by
      rw [DelayQueue.writeLoop]
      by_cases hdue : front.1 ≤ clock k
      · obtain ⟨written, left, hl, hleft, hsub⟩ :=
          delay_writeLoop_ok clock (k + 1) h.tail
        refine ⟨front.2 :: written, left, ?_, hleft, fun x hx => List.mem_cons_of_mem _ (hsub x hx)⟩
        simp [hdue, write_eq_ok (h.writable front (List.mem_cons_self ..)), hl]
      · exact ⟨[], front :: rest, by rw [if_neg hdue], h, fun x hx => hx⟩

/-- Where `contrary` writes what the FIFO writes, it was given no choice. -/
theorem plainTurns_of_contrary {clock : Nat → Nat} : ∀ {n k : Nat} {q : List DelayPktPair}
    {written : List Bytes} {left packets' : List DelayPktPair}, InOrder q →
    DelayQueue.writeLoop clock k q = .ok (written, left) →
    AdvDelayQueue.writeLoop (contrary Prod.fst) clock n k q = .ok (written, packets') →
    PlainTurns clock k q ∧ packets' = left
  | 0, _, _, _, _, _, _, _, ha => by cases ha
  | n + 1, k, [], written, left, packets', _, hd, ha => by
      cases hd
      cases ha
      exact ⟨trivial, rfl⟩
  | n + 1, k, front :: rest, written, left, packets', h, hd, ha => by
      simp only [DelayQueue.writeLoop] at hd
      simp only [AdvDelayQueue.writeLoop] at ha
      cases htop : contraryTop Prod.fst (front :: rest) with
      | none => simp [contraryTop_eq_none] at htop
      | some top =>
          have htop' : (contrary Prod.fst).top (front :: rest) = some top := htop
          obtain ⟨hmem, hleast⟩ := contraryTop_mem htop
          rw [isLeast_iff] at hleast
          have hfirst : front.1 = top.1 := by
            refine le_antisymm ?_ (hleast front (List.mem_cons_self ..))
            rcases List.mem_cons.mp hmem with rfl | hmem
            · exact le_rfl
            · exact (List.pairwise_cons.mp h.sorted).1 top hmem
          simp only [htop'] at ha
          by_cases hdue : front.1 ≤ clock k
          · rw [if_pos hdue, write_eq_ok (h.writable front (List.mem_cons_self ..))] at hd
            rw [if_pos (hfirst ▸ hdue), write_eq_ok (h.writable top hmem)] at ha
            simp only [ok_bind, bind_eq_ok, pure_eq_ok, Except.ok.injEq, Prod.mk.injEq,
              Prod.exists] at hd ha
            obtain ⟨writtenD, leftD, hd, rfl, rfl⟩ := hd
            obtain ⟨writtenA, leftA, ha, hpair⟩ := ha
            obtain ⟨hwritten, rfl⟩ := Prod.mk.inj hpair
            have hcontents : top.2 = front.2 := (List.cons.inj hwritten).1
            have hrest : writtenA = writtenD := (List.cons.inj hwritten).2
            subst hrest
            obtain rfl : top = front := Prod.ext hfirst.symm hcontents
            have hpop : (contrary Prod.fst).pop (top :: rest) = rest := by
              simp only [contrary, htop, List.erase_cons_head]
            rw [hpop] at ha
            obtain ⟨hturns, hleft⟩ := plainTurns_of_contrary h.tail hd ha
            refine ⟨⟨fun x hx hxleast _ => ?_, fun _ => hturns⟩, hleft⟩
            have := contraryTop_head htop rfl x hx (isLeast_iff.mpr hxleast)
            rw [this]
            rfl
          · rw [if_neg hdue] at hd
            rw [if_neg (hfirst ▸ hdue)] at ha
            cases hd
            cases ha
            refine ⟨⟨fun x hx _ hxdue => ?_, fun h => absurd h hdue⟩, rfl⟩
            have hfx : front.1 ≤ x.1 := hfirst ▸ hleast x hx
            exact absurd (Nat.le_trans hfx hxdue) hdue

/-- Where `contrary` gives the outputs of the FIFO, the run is plain. -/
theorem plainRun_of_outputs {rules : DelayRules} {uplink : Bool} :
    ∀ {calls : List FerryCall} {a : AdvDelayQueue (contrary Prod.fst)} {q : DelayQueue},
    outputs calls a = outputs calls q → a.rules = rules → a.uplink = uplink →
    a.delayMs = q.delayMs → a.packetQueue = q.packetQueue → InOrder q.packetQueue →
    (∀ x ∈ q.packetQueue, ∀ t ∈ readTimes calls, x.1 ≤ t + q.delayMs) →
    (readTimes calls).Pairwise (· ≤ ·) → (∀ t ∈ readTimes calls, t + q.delayMs < 2 ^ 64) →
    (∀ pkt ∈ packetsRead calls, NoRuleMatches rules uplink pkt) → PlainRun calls q
  | [], _, _, _, _, _, _, _, _, _, _, _, _ => trivial
  | .readPacket now contents :: calls, a, q, hout, hr, hu, hdelay, hpk, hin, hle, hmono, hwrap,
      hrules => by
      subst hr hu
      have hmatch := hrules contents (List.mem_cons_self ..)
      by_cases hacc : Accepted contents
      · have hread := AdvDelayQueue.readPacket_of_accepted now hmatch hacc
        simp only [outputs, FerryQueue.readPacket, hread, List.cons.injEq, true_and] at hout
        have hrel : u64 (now + q.delayMs) = now + q.delayMs :=
          u64_of_lt (hwrap now (List.mem_cons_self ..))
        have hmono' := List.pairwise_cons.mp hmono
        refine ⟨hacc, plainRun_of_outputs hout rfl rfl hdelay ?_ ?_ ?_ hmono'.2
          (fun t ht => hwrap t (List.mem_cons_of_mem _ ht))
          (fun pkt hpkt => hrules pkt (List.mem_cons_of_mem _ hpkt))⟩
        · simp only [contrary, hpk, hdelay, DelayQueue.readPacket]
        · have hne : contents ≠ [] := by
            have := hacc.1
            rintro rfl
            simp at this
          refine hin.concat (fun x hx => ?_) hne
          simpa [hrel] using hle x hx now (List.mem_cons_self ..)
        · intro x hx t ht
          rcases List.mem_append.mp hx with hx | hx
          · exact hle x hx t (List.mem_cons_of_mem _ ht)
          · obtain rfl := List.mem_singleton.mp hx
            simpa [hrel, DelayQueue.readPacket] using hmono'.1 t ht
      · obtain ⟨f, hf⟩ := AdvDelayQueue.readPacket_of_not_accepted now hmatch hacc
        simp [outputs, FerryQueue.readPacket, hf] at hout
  | .writePackets clock :: calls, a, q, hout, hr, hu, hdelay, hpk, hin, hle, hmono, hwrap,
      hrules => by
      obtain ⟨written, left, hl, hleft, hsub⟩ := delay_writeLoop_ok clock 0 hin
      simp only [outputs, FerryQueue.writePackets, AdvDelayQueue.writePackets,
        DelayQueue.writePackets, hl, ok_bind, pure_eq_ok, hpk] at hout
      cases ha : AdvDelayQueue.writeLoop (contrary Prod.fst) clock
          (((contrary Prod.fst).elements q.packetQueue).length + 1) 0 q.packetQueue with
      | error f =>
          rw [ha] at hout
          simp at hout
      | ok r =>
          obtain ⟨writtenA, packets'⟩ := r
          rw [ha] at hout
          simp only [ok_bind, List.cons.injEq, Except.ok.injEq] at hout
          obtain ⟨rfl, hout⟩ := hout
          obtain ⟨hturns, rfl⟩ := plainTurns_of_contrary hin hl ha
          refine ⟨hturns, fun written' q' hq' => ?_⟩
          simp only [DelayQueue.writePackets, hl, ok_bind, pure_eq_ok, Except.ok.injEq,
            Prod.mk.injEq] at hq'
          obtain ⟨-, rfl⟩ := hq'
          exact plainRun_of_outputs hout hr hu hdelay rfl hleft (fun x hx => hle x (hsub x hx)) hmono
            hwrap hrules

/-- When no rule matches, `AdvDelayQueue` writes what `DelayQueue` writes, with
every priority queue that the standard allows, in every plain run; and where
release times do not wrap around, in no other. -/
theorem outputs_eq_iff (rules : DelayRules) (uplink : Bool) (delayMs : Nat)
    (calls : List FerryCall)
    (hrules : ∀ pkt ∈ packetsRead calls, NoRuleMatches rules uplink pkt) :
    (PlainRun calls (.initial delayMs) → ∀ K : ReleaseQueue,
      outputs calls (AdvDelayQueue.initial K delayMs rules uplink)
        = outputs calls (DelayQueue.initial delayMs)) ∧
    ((readTimes calls).Pairwise (· ≤ ·) → (∀ t ∈ readTimes calls, t + delayMs < 2 ^ 64) →
      (∀ K : ReleaseQueue, outputs calls (AdvDelayQueue.initial K delayMs rules uplink)
        = outputs calls (DelayQueue.initial delayMs)) →
      PlainRun calls (.initial delayMs)) := by
  refine ⟨fun hplain K => ?_, fun hmono hwrap hout => ?_⟩
  · have hnil : (K.elements K.empty).Perm [] := by rw [K.elements_empty]
    exact outputs_of_plainRun ⟨rfl, rfl, rfl, hnil⟩ hrules hplain
  · exact plainRun_of_outputs (hout (contrary Prod.fst)) rfl rfl rfl rfl
      ⟨.nil, by simp [DelayQueue.initial]⟩ (by simp [DelayQueue.initial]) hmono hwrap hrules

/-- A TCP packet with nothing but its header, and its last byte `tag`. -/
def ipPacket (tag : UInt8) : Bytes :=
  [0, 0, 8, 0, 0x45] ++ List.replicate 8 0 ++ [6] ++ List.replicate 29 0 ++ [tag]

/-- Three packets, each read in a millisecond of its own. -/
def threeApart : List FerryCall :=
  [.readPacket 0 (ipPacket 1), .readPacket 5 (ipPacket 2), .writePackets fun _ => 20,
    .readPacket 21 (ipPacket 3), .writePackets fun _ => 50]

/-- Four packets read within one millisecond, and written when they are due. -/
def fourAtOnce : List FerryCall :=
  [.readPacket 0 (ipPacket 1), .readPacket 0 (ipPacket 2), .readPacket 0 (ipPacket 3),
    .readPacket 0 (ipPacket 4), .writePackets fun _ => 20]

/-- A rule for the packets' address, and for a port that they are not sent to. -/
def otherPort : DelayRules := [(ipprotoTcp, [(0, [(443, ⟨0, 443, 40, 40, 0, 0, 0, 0⟩)])])]

theorem noRuleMatches_otherPort (tag : UInt8) : NoRuleMatches otherPort true (ipPacket tag) := by
  intro _ proto ipRules hproto hip
  obtain rfl : 6 = proto := Except.ok.inj hproto
  obtain rfl := Option.some.inj hip
  refine ⟨0, rfl, fun portRules hport => ?_⟩
  obtain rfl := Option.some.inj hport
  exact ⟨rfl, by decide, fun _ => ⟨0, rfl, rfl⟩⟩

/-- Packets with release times of their own leave the heap in order; of four that leave at
once some priority queue changes the order. -/
theorem outputs_eq_iff_otherPort :
    outputs threeApart (AdvDelayQueue.initial (Heap.queue Prod.fst) 20 otherPort true)
        = outputs threeApart (DelayQueue.initial 20) ∧
      ¬ ∀ K : ReleaseQueue, outputs fourAtOnce (AdvDelayQueue.initial K 20 otherPort true)
        = outputs fourAtOnce (DelayQueue.initial 20) := by
  have hrules : ∀ calls ∈ [threeApart, fourAtOnce], ∀ pkt ∈ packetsRead calls,
      NoRuleMatches otherPort true pkt := by
    simp [threeApart, fourAtOnce, packetsRead, noRuleMatches_otherPort]
  refine ⟨(outputs_eq_iff otherPort true 20 threeApart (hrules _ (by simp))).1
    (by decide) (Heap.queue Prod.fst), fun h => ?_⟩
  have hplain := (outputs_eq_iff otherPort true 20 fourAtOnce (hrules _ (by simp))).2
    (by decide) (by decide) h
  exact absurd hplain (by decide)

/-- With the heap of libstdc++ the third of them leaves second. -/
theorem fourAtOnce_differs :
    outputs fourAtOnce (AdvDelayQueue.initial (Heap.queue Prod.fst) 20 [] true)
      ≠ outputs fourAtOnce (DelayQueue.initial 20) := by
  intro h
  have hlast : ((outputs fourAtOnce (AdvDelayQueue.initial (Heap.queue Prod.fst) 20 [] true))[4]?.bind
        Except.toOption) = some [ipPacket 1, ipPacket 3, ipPacket 2, ipPacket 4] := by
    decide +kernel
  rw [h] at hlast
  exact absurd hlast (by decide +kernel)

end Mahimahi
