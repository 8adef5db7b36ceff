import Mahimahi.DelayRule

/-!
# Which rule a packet gets

`Selects` says which rule of the table a packet belongs to: the wild card
rule of its protocol and address, or else, for TCP and UDP, the rule of its
port. What `get_delay_for` returns is told in its terms, case by case.

A packet whose headers are complete gets the delay of the rule that selects
it, or the default delay, unless it stumbles (`served_iff`): over an address
that has rules for ICMP but none for all ports, and over IPv6, where a byte
of the source address is taken for the protocol.
-/

namespace Mahimahi

/-! ## Rules by direction -/

namespace DelayRule

def delay (uplink : Bool) (rule : DelayRule) : Nat :=
  if uplink then rule.fwdDelay else rule.revDelay

def lim (uplink : Bool) (rule : DelayRule) : Nat := if uplink then rule.fwdLim else rule.revLim

def altDelay (uplink : Bool) (rule : DelayRule) : Nat :=
  if uplink then rule.fwdAltDelay else rule.revAltDelay

/-- The delay of a rule that has carried `bytes` before. -/
def delayAfter (uplink : Bool) (rule : DelayRule) (bytes : Nat) : Nat :=
  if bytes < rule.lim uplink then rule.delay uplink else rule.altDelay uplink

end DelayRule

/-! ## The rule for a packet -/

/-- The ports under which the table has rules for a protocol and an address. -/
def portRulesAt (rules : DelayRules) (proto ip : Nat) : Option PortRules :=
  (rules.lookup proto).bind fun ipRules => ipRules.lookup ip

/-- The rule under `proto`, `ip` and `p` is the rule for the packet. -/
inductive Selects (rules : DelayRules) (uplink : Bool) (pkt : Bytes) (proto ip : Nat) : Nat → Prop
  | wildcard : version pkt = .ok 4 → protocol pkt = .ok proto → address uplink pkt = .ok ip →
      storedRule rules proto ip DelayRule.wildcardPort ≠ none →
      Selects rules uplink pkt proto ip DelayRule.wildcardPort
  | port {p} : version pkt = .ok 4 → protocol pkt = .ok proto → address uplink pkt = .ok ip →
      storedRule rules proto ip DelayRule.wildcardPort = none →
      proto = ipprotoTcp ∨ proto = ipprotoUdp → port uplink pkt = .ok p →
      storedRule rules proto ip p ≠ none → Selects rules uplink pkt proto ip p

section

variable {rules : DelayRules} {uplink : Bool} {pkt : Bytes} {proto ip p proto' ip' p' : Nat}

theorem Selects.version (h : Selects rules uplink pkt proto ip p) : version pkt = .ok 4 := by
  cases h <;> assumption

theorem Selects.protocol (h : Selects rules uplink pkt proto ip p) : protocol pkt = .ok proto := by
  cases h <;> assumption

theorem Selects.address (h : Selects rules uplink pkt proto ip p) :
    address uplink pkt = .ok ip := by
  cases h <;> assumption

theorem Selects.stored (h : Selects rules uplink pkt proto ip p) :
    storedRule rules proto ip p ≠ none := by
  cases h <;> assumption

theorem Selects.unique (h : Selects rules uplink pkt proto ip p)
    (h' : Selects rules uplink pkt proto' ip' p') : proto' = proto ∧ ip' = ip ∧ p' = p := by
  obtain rfl : proto' = proto := Except.ok.inj (h'.protocol.symm.trans h.protocol)
  obtain rfl : ip' = ip := Except.ok.inj (h'.address.symm.trans h.address)
  refine ⟨rfl, rfl, ?_⟩
  cases h with
  | wildcard _ _ _ hwild =>
      cases h' with
      | wildcard => rfl
      | port _ _ _ hnone => exact absurd hnone hwild
  | port _ _ _ hnone _ hport =>
      cases h' with
      | wildcard _ _ _ hwild => exact absurd hnone hwild
      | port _ _ _ _ _ hport' => exact Except.ok.inj (hport'.symm.trans hport)

theorem storedRule_eq_bind (rules : DelayRules) (proto ip p : Nat) :
    storedRule rules proto ip p = (portRulesAt rules proto ip).bind fun portRules =>
      portRules.lookup p := rfl

end

/-! ## What get_delay_for returns -/

namespace AdvDelayQueue

variable {K : ReleaseQueue}

/-- The queue after a packet of `sz` bytes has been counted for the rule. -/
def carry (q : AdvDelayQueue K) (rule : DelayRule) (sz : Nat) : AdvDelayQueue K :=
  { q with
    byteCounters := addTo q.byteCounters rule.ip rule.port sz
    pktCounters := addTo q.pktCounters rule.ip rule.port 1 }

theorem getDelayForTcp_of_port {q : AdvDelayQueue K} {portRules : PortRules} {pkt : Bytes} {p : Nat}
    (sz : Nat) (hp : port q.uplink pkt = .ok p) :
    q.getDelayForTcp portRules pkt sz = match portRules.lookup p with
      | none => .ok (q.delayMs, q)
      | some rule =>
          .ok (rule.delayAfter q.uplink (q.byteCounters rule.ip rule.port), q.carry rule sz) := by
  simp only [getDelayForTcp, hp, ok_bind]
  cases portRules.lookup p with
  | none => rfl
  | some rule =>
      cases hup : q.uplink <;>
        simp [DelayRule.delayAfter, DelayRule.lim, DelayRule.delay, DelayRule.altDelay, carry, hup]

theorem getDelayForUdp_of_port {q : AdvDelayQueue K} {portRules : PortRules} {pkt : Bytes} {p : Nat}
    (hp : port q.uplink pkt = .ok p) :
    q.getDelayForUdp portRules pkt = match portRules.lookup p with
      | none => .ok q.delayMs
      | some rule => .ok (rule.delay q.uplink) := by
  simp only [getDelayForUdp, hp, ok_bind]
  cases portRules.lookup p <;> rfl

section

variable {q : AdvDelayQueue K} {pkt : Bytes} {proto ip : Nat} (sz : Nat)

theorem getDelayForIpv4_of_no_rules (hproto : protocol pkt = .ok proto)
    (hip : address q.uplink pkt = .ok ip) (h : portRulesAt q.rules proto ip = none) :
    q.getDelayForIpv4 pkt sz = .ok (q.delayMs, q) := by
  simp only [getDelayForIpv4, hproto, hip, ok_bind]
  simp only [portRulesAt] at h
  cases hl : q.rules.lookup proto with
  | none => rfl
  | some ipRules =>
      rw [hl, Option.bind_some] at h
      simp only [h]
      rfl

/-- With rules for the address: the wild card rule comes first, and where
there is none the protocol decides. -/
theorem getDelayForIpv4_of_rules {portRules : PortRules} (hproto : protocol pkt = .ok proto)
    (hip : address q.uplink pkt = .ok ip) (h : portRulesAt q.rules proto ip = some portRules) :
    q.getDelayForIpv4 pkt sz = match portRules.lookup DelayRule.wildcardPort with
      | some rule => .ok (rule.delay q.uplink, q)
      | none =>
          if proto = ipprotoIcmp then .error .outOfRange
          else if proto = ipprotoTcp then q.getDelayForTcp portRules pkt sz
          else if proto = ipprotoUdp then do return (← q.getDelayForUdp portRules pkt, q)
          else .ok (q.delayMs, q) := by
  simp only [getDelayForIpv4, hproto, hip, ok_bind]
  simp only [portRulesAt, Option.bind_eq_some_iff] at h
  obtain ⟨ipRules, hl, hports⟩ := h
  simp only [hl, hports]
  have hzero : portRules.lookup 0 = portRules.lookup DelayRule.wildcardPort := rfl
  rw [hzero]
  cases hwild : portRules.lookup DelayRule.wildcardPort with
  | some rule => rfl
  | none => rfl

end

end AdvDelayQueue

/-! ## Packets that stumble -/

/-- The bytes that a transport header has at least. -/
def transportHeader (proto : Nat) : Nat :=
  if proto = ipprotoTcp then 20 else if proto = ipprotoUdp then 8 else 0

/-- Behind the packet information stands an IP packet whose headers are
complete, as those of every well-formed packet are. -/
inductive CompleteHeaders (frame : Bytes) : Prop
  | ipv4 {b proto} : byteAt frame 4 = .ok b → b / 2 ^ 4 = 4 → 5 ≤ b % 2 ^ 4 →
      protocol frame = .ok proto →
      4 + b % 2 ^ 4 * 4 + transportHeader proto ≤ frame.length → CompleteHeaders frame
  | ipv6 : version frame = .ok 6 → 4 + 40 ≤ frame.length → CompleteHeaders frame

/-- An ICMP packet whose address has ICMP rules, but no wild card rule. -/
def IcmpUncovered (rules : DelayRules) (uplink : Bool) (frame : Bytes) : Prop :=
  version frame = .ok 4 ∧ protocol frame = .ok ipprotoIcmp ∧ ∃ ip portRules,
    address uplink frame = .ok ip ∧ portRulesAt rules ipprotoIcmp ip = some portRules ∧
      portRules.lookup DelayRule.wildcardPort = none

/-- An IPv6 packet whose tenth byte, the second of the source address, is not 6. -/
def Ipv6Mistaken (frame : Bytes) : Prop := version frame = .ok 6 ∧ protocol frame ≠ .ok 6

/-- `d` is a delay of the rule, the second one only beyond the limit. -/
def DelayRule.Gives (uplink : Bool) (rule : DelayRule) (bytes d : Nat) : Prop :=
  d = rule.delay uplink ∨ (rule.lim uplink ≤ bytes ∧ d = rule.altDelay uplink)

/-- What the packet should get: a delay of the rule that selects it, or the
default delay when none does. -/
def Answers {K : ReleaseQueue} (q : AdvDelayQueue K) (frame : Bytes) (d : Nat) : Prop :=
  (∃ proto ip p rule, Selects q.rules q.uplink frame proto ip p ∧
    storedRule q.rules proto ip p = some rule ∧
    rule.Gives q.uplink (q.byteCounters rule.ip rule.port) d) ∨
  ((∀ proto ip p, ¬ Selects q.rules q.uplink frame proto ip p) ∧ d = q.delayMs)

/-- `read_packet` returns, with the packet queued under the delay that it
should get. -/
def Served {K : ReleaseQueue} (q : AdvDelayQueue K) (now : Nat) (frame : Bytes) : Prop :=
  ∃ d q', Answers q frame d ∧ q.readPacket now frame = .ok q' ∧
    q'.packetQueue = K.emplace (u64 (now + d), frame) q.packetQueue

/-! ## Reading complete headers -/

theorem word_eq_ok (pkt : Bytes) (i : Nat) (h : i + 4 ≤ pkt.length) : ∃ n, word pkt i = .ok n := by
  obtain ⟨b0, h0⟩ := AdvDelayQueue.byteAt_eq_ok pkt i (by omega)
  obtain ⟨b1, h1⟩ := AdvDelayQueue.byteAt_eq_ok pkt (i + 1) (by omega)
  obtain ⟨b2, h2⟩ := AdvDelayQueue.byteAt_eq_ok pkt (i + 2) (by omega)
  obtain ⟨b3, h3⟩ := AdvDelayQueue.byteAt_eq_ok pkt (i + 3) (by omega)
  exact ⟨_, by simp only [word, h0, h1, h2, h3, ok_bind]; rfl⟩

theorem ntohs_eq_ok (pkt : Bytes) (i : Nat) (h : i + 2 ≤ pkt.length) : ∃ n, ntohs pkt i = .ok n := by
  obtain ⟨hi, hhi⟩ := AdvDelayQueue.byteAt_eq_ok pkt i (by omega)
  obtain ⟨lo, hlo⟩ := AdvDelayQueue.byteAt_eq_ok pkt (i + 1) (by omega)
  exact ⟨_, by simp only [ntohs, hhi, hlo, ok_bind]; rfl⟩

theorem port_eq_ok {frame : Bytes} {b : Nat} (uplink : Bool) (hb : byteAt frame 4 = .ok b)
    (h : 4 + b % 2 ^ 4 * 4 + 8 ≤ frame.length) : ∃ p, port uplink frame = .ok p := by
  simp only [port, hb, ok_bind]
  cases uplink
  · exact ntohs_eq_ok frame _ (by simp only [Bool.false_eq_true, if_false]; omega)
  · exact ntohs_eq_ok frame _ (by simp only [if_true]; omega)

theorem version_of_byteAt {frame : Bytes} {b : Nat} (hb : byteAt frame 4 = .ok b) :
    version frame = .ok (b / 2 ^ 4) := by
  simp only [version, hb, ok_bind]
  rfl

/-! ## Who is served -/

namespace AdvDelayQueue

variable {K : ReleaseQueue} {q q' : AdvDelayQueue K} {frame : Bytes} {sz d : Nat}

/-- What the search for the rule of an IPv4 packet comes to: the delay, and the
queue after it. Only a TCP rule under a port counts the packet. -/
inductive Found (q : AdvDelayQueue K) (frame : Bytes) (sz proto : Nat) :
    Nat → AdvDelayQueue K → Prop where
  | none : (∀ ip p, ¬ Selects q.rules q.uplink frame proto ip p) → Found q frame sz proto q.delayMs q
  | wildcard {ip rule} : Selects q.rules q.uplink frame proto ip DelayRule.wildcardPort →
      storedRule q.rules proto ip DelayRule.wildcardPort = some rule →
      Found q frame sz proto (rule.delay q.uplink) q
  | tcp {ip p rule} : proto = ipprotoTcp → p ≠ DelayRule.wildcardPort →
      Selects q.rules q.uplink frame proto ip p → storedRule q.rules proto ip p = some rule →
      Found q frame sz proto (rule.delayAfter q.uplink (q.byteCounters rule.ip rule.port))
        (q.carry rule sz)
  | udp {ip p rule} : proto = ipprotoUdp →
      Selects q.rules q.uplink frame proto ip p → storedRule q.rules proto ip p = some rule →
      Found q frame sz proto (rule.delay q.uplink) q

theorem not_selects {proto ip : Nat} (hip : address q.uplink frame = .ok ip)
    (hnone : storedRule q.rules proto ip DelayRule.wildcardPort = none)
    (hport : ∀ p, proto = ipprotoTcp ∨ proto = ipprotoUdp → port q.uplink frame = .ok p →
      storedRule q.rules proto ip p = none) (ip' p : Nat) :
    ¬ Selects q.rules q.uplink frame proto ip' p := by
  intro hselects
  obtain rfl := Except.ok.inj (hselects.address.symm.trans hip)
  cases hselects with
  | wildcard _ _ _ hsome => exact hsome hnone
  | port _ _ _ _ htransport hp hsome => exact hsome (hport p htransport hp)

/-- The search at an address with rules, but without a wild card rule: the port decides, where
the protocol has ports. -/
theorem getDelayForIpv4_found_of_port {proto ip : Nat} {portRules : PortRules}
    (hversion : version frame = .ok 4) (hproto : protocol frame = .ok proto)
    (hip : address q.uplink frame = .ok ip) (hrules : portRulesAt q.rules proto ip = some portRules)
    (hwild : portRules.lookup DelayRule.wildcardPort = none)
    (h : q.getDelayForIpv4 frame sz = .ok (d, q')) : Found q frame sz proto d q' := by
  have hstored (p : Nat) : storedRule q.rules proto ip p = portRules.lookup p := by
    rw [storedRule_eq_bind, hrules, Option.bind_some]
  have hnone := (hstored DelayRule.wildcardPort).trans hwild
  -- what the table says of the port decides between a rule and none
  have hselects {p : Nat} {rule : DelayRule} (hp : port q.uplink frame = .ok p)
      (htransport : proto = ipprotoTcp ∨ proto = ipprotoUdp)
      (hrule : portRules.lookup p = some rule) : Selects q.rules q.uplink frame proto ip p :=
    .port hversion hproto hip hnone htransport hp (by simp [hstored, hrule])
  have hnot {p : Nat} (hp : port q.uplink frame = .ok p) (hrule : portRules.lookup p = none) :=
    not_selects hip hnone fun p' _ hp' => by
      obtain rfl := Except.ok.inj (hp'.symm.trans hp)
      exact (hstored p').trans hrule
  rw [getDelayForIpv4_of_rules sz hproto hip hrules] at h
  simp only [hwild] at h
  split at h
  · cases h
  split at h
  · next htcp =>
      obtain ⟨p, hp, -⟩ := bind_eq_ok.mp h
      rw [getDelayForTcp_of_port sz hp] at h
      cases hrule : portRules.lookup p with
      | none => rw [hrule] at h; cases h; exact .none (hnot hp hrule)
      | some rule =>
          rw [hrule] at h
          cases h
          refine .tcp htcp ?_ (hselects hp (.inl htcp) hrule) ((hstored p).trans hrule)
          rintro rfl
          rw [hwild] at hrule
          cases hrule
  split at h
  · next hudp =>
      obtain ⟨d', hd', h⟩ := bind_eq_ok.mp h
      cases h
      obtain ⟨p, hp, -⟩ := bind_eq_ok.mp hd'
      rw [getDelayForUdp_of_port hp] at hd'
      cases hrule : portRules.lookup p with
      | none => rw [hrule] at hd'; cases hd'; exact .none (hnot hp hrule)
      | some rule =>
          rw [hrule] at hd'
          cases hd'
          exact .udp hudp (hselects hp (.inr hudp) hrule) ((hstored p).trans hrule)
  · next htcp hudp =>
      cases h
      exact .none (not_selects hip hnone fun _ htransport _ =>
        htransport.elim (absurd · htcp) (absurd · hudp))

/-- One case for each place in which the search can end. -/
theorem getDelayForIpv4_found {proto : Nat} (hversion : version frame = .ok 4)
    (hproto : protocol frame = .ok proto) (h : q.getDelayForIpv4 frame sz = .ok (d, q')) :
    Found q frame sz proto d q' := by
  cases hl : q.rules.lookup proto with
  | none =>
      simp only [getDelayForIpv4, hproto, ok_bind, hl] at h
      cases h
      exact .none fun ip p hselects => hselects.stored (by simp [storedRule, hl])
  | some ipRules =>
      cases hip : address q.uplink frame with
      | error f => simp [getDelayForIpv4, hproto, hl, hip] at h
      | ok ip =>
          cases hrules : portRulesAt q.rules proto ip with
          | none =>
              rw [getDelayForIpv4_of_no_rules sz hproto hip hrules] at h
              cases h
              have hstored (p : Nat) : storedRule q.rules proto ip p = none := by
                rw [storedRule_eq_bind, hrules, Option.bind_none]
              exact .none (not_selects hip (hstored _) fun p _ _ => hstored p)
          | some portRules =>
              cases hwild : portRules.lookup DelayRule.wildcardPort with
              | some rule =>
                  have hsome : storedRule q.rules proto ip DelayRule.wildcardPort = some rule := by
                    rw [storedRule_eq_bind, hrules, Option.bind_some, hwild]
                  rw [getDelayForIpv4_of_rules sz hproto hip hrules, hwild] at h
                  cases h
                  exact .wildcard (.wildcard hversion hproto hip (by simp [hsome])) hsome
              | none => exact getDelayForIpv4_found_of_port hversion hproto hip hrules hwild h

theorem delayAfter_gives (uplink : Bool) (rule : DelayRule) (bytes : Nat) :
    rule.Gives uplink bytes (rule.delayAfter uplink bytes) := by
  rw [DelayRule.delayAfter]
  split
  · exact .inl rfl
  · next h => exact .inr ⟨Nat.le_of_not_lt h, rfl⟩

theorem Found.answers {proto : Nat} (hproto : protocol frame = .ok proto)
    (h : Found q frame sz proto d q') : Answers q frame d := by
  cases h with
  | none hnot =>
      refine .inr ⟨fun proto' ip p hselects => ?_, rfl⟩
      obtain rfl := Except.ok.inj (hselects.protocol.symm.trans hproto)
      exact hnot ip p hselects
  | wildcard hselects hrule => exact .inl ⟨_, _, _, _, hselects, hrule, .inl rfl⟩
  | tcp _ _ hselects hrule => exact .inl ⟨_, _, _, _, hselects, hrule, delayAfter_gives ..⟩
  | udp _ hselects hrule => exact .inl ⟨_, _, _, _, hselects, hrule, .inl rfl⟩

theorem Found.packetQueue_eq {proto : Nat} (h : Found q frame sz proto d q') :
    q'.packetQueue = q.packetQueue := by
  cases h <;> rfl

/-- IPv4: with complete headers the search comes to an end. -/
theorem getDelayForIpv4_returns {b proto : Nat} (sz : Nat) (hb : byteAt frame 4 = .ok b)
    (hfour : b / 2 ^ 4 = 4) (hihl : 5 ≤ b % 2 ^ 4) (hproto : protocol frame = .ok proto)
    (hlength : 4 + b % 2 ^ 4 * 4 + transportHeader proto ≤ frame.length)
    (hcovered : ¬ IcmpUncovered q.rules q.uplink frame) :
    ∃ r, q.getDelayForIpv4 frame sz = .ok r := by
  obtain ⟨ip, hip⟩ : ∃ ip, address q.uplink frame = .ok ip := by
    cases hup : q.uplink
    · exact word_eq_ok frame (4 + 12) (by omega)
    · exact word_eq_ok frame (4 + 16) (by omega)
  cases hrules : portRulesAt q.rules proto ip with
  | none => exact ⟨_, getDelayForIpv4_of_no_rules sz hproto hip hrules⟩
  | some portRules =>
      rw [getDelayForIpv4_of_rules sz hproto hip hrules]
      cases hwild : portRules.lookup DelayRule.wildcardPort with
      | some rule => exact ⟨_, rfl⟩
      | none =>
          have hicmp : proto ≠ ipprotoIcmp := by
            rintro rfl
            exact hcovered
              ⟨by rw [version_of_byteAt hb, hfour], hproto, ip, portRules, hip, hrules, hwild⟩
          simp only [if_neg hicmp]
          by_cases htcp : proto = ipprotoTcp
          · obtain ⟨p, hp⟩ := port_eq_ok q.uplink hb
              (by simp only [transportHeader, if_pos htcp] at hlength; omega)
            rw [if_pos htcp, getDelayForTcp_of_port sz hp]
            cases portRules.lookup p <;> exact ⟨_, rfl⟩
          · by_cases hudp : proto = ipprotoUdp
            · obtain ⟨p, hp⟩ := port_eq_ok q.uplink hb
                (by simp only [transportHeader, if_neg htcp, if_pos hudp] at hlength; omega)
              rw [if_neg htcp, if_pos hudp, getDelayForUdp_of_port hp]
              cases portRules.lookup p <;> exact ⟨_, rfl⟩
            · rw [if_neg htcp, if_neg hudp]
              exact ⟨_, rfl⟩

theorem getDelayForIpv4_uncovered (sz : Nat) (h : IcmpUncovered q.rules q.uplink frame) :
    q.getDelayForIpv4 frame sz = .error .outOfRange := by
  obtain ⟨-, hproto, ip, portRules, hip, hrules, hwild⟩ := h
  rw [getDelayForIpv4_of_rules sz hproto hip hrules, hwild]
  rfl

/-- The queue after the bytes of a packet have been added. -/
def counted (q : AdvDelayQueue K) (frame : Bytes) : AdvDelayQueue K :=
  { q with numBytes := u64 (q.numBytes + frame.length) }

theorem readPacket_of_size (now : Nat) (hsize : ¬ frame.length < 20) :
    q.readPacket now frame = (do
      let (d, q') ← (q.counted frame).getDelayFor frame frame.length
      return { q' with packetQueue := K.emplace (u64 (now + d), frame) q'.packetQueue }) := by
  simp only [readPacket, if_neg hsize]
  rfl

/-- A packet with a version other than 4 gets the default delay if the byte in
the place of the protocol is a 6, and an exception if not. -/
theorem getDelayFor_of_not_ipv4 {v proto : Nat} (sz : Nat) (hversion : version frame = .ok v)
    (hv : v ≠ 4) (hproto : protocol frame = .ok proto) :
    (proto = 6 → q.getDelayFor frame sz = .ok (q.delayMs, q)) ∧
      (proto ≠ 6 → ∃ f, q.getDelayFor frame sz = .error f) := by
  constructor
  · rintro rfl
    simp [getDelayFor, hversion, hv, getDelayForIpv6, hproto]
  · intro hne
    simp [getDelayFor, hversion, hv, getDelayForIpv6, hproto, hne]

/-- A call that returns has searched for the rule of an IPv4 packet, or it has
the default delay for another packet. -/
theorem getDelayFor_found (h : q.getDelayFor frame sz = .ok (d, q')) :
    (∃ proto, version frame = .ok 4 ∧ protocol frame = .ok proto ∧ Found q frame sz proto d q') ∨
      (version frame ≠ .ok 4 ∧ d = q.delayMs ∧ q' = q) := by
  obtain ⟨v, hversion, h⟩ := bind_eq_ok.mp h
  by_cases hfour : v = 4
  · subst hfour
    rw [if_neg (by simp)] at h
    obtain ⟨proto, hproto, -⟩ := bind_eq_ok.mp h
    exact .inl ⟨proto, hversion, hproto, getDelayForIpv4_found hversion hproto h⟩
  · rw [if_pos hfour] at h
    obtain ⟨d', hd', h⟩ := bind_eq_ok.mp h
    cases h
    obtain ⟨proto, -, hd'⟩ := bind_eq_ok.mp hd'
    by_cases hsix : proto = 6
    · rw [if_neg (by simpa using hsix)] at hd'
      cases hd'
      exact .inr ⟨fun hfour' => hfour (Except.ok.inj (hversion.symm.trans hfour')), rfl, rfl⟩
    · rw [if_pos hsix] at hd'
      cases hd'

end AdvDelayQueue

/-- Of the IPv4 packets, those that no ICMP rule leaves uncovered are served. -/
theorem served_ipv4 {K : ReleaseQueue} (q : AdvDelayQueue K) (now : Nat) {frame : Bytes}
    {b proto : Nat} (hb : byteAt frame 4 = .ok b) (hfour : b / 2 ^ 4 = 4) (hihl : 5 ≤ b % 2 ^ 4)
    (hproto : protocol frame = .ok proto)
    (hlength : 4 + b % 2 ^ 4 * 4 + transportHeader proto ≤ frame.length) :
    Served q now frame ↔ ¬ IcmpUncovered q.rules q.uplink frame := by
  have hsize : ¬ frame.length < 20 := by omega
  have hread := AdvDelayQueue.readPacket_of_size (q := q) now hsize
  have hversion : version frame = .ok 4 := by rw [version_of_byteAt hb, hfour]
  have hfor : (q.counted frame).getDelayFor frame frame.length
      = (q.counted frame).getDelayForIpv4 frame frame.length := by
    simp [AdvDelayQueue.getDelayFor, hversion]
  constructor
  · rintro ⟨d, q', -, hq', -⟩ huncovered
    have herror := AdvDelayQueue.getDelayForIpv4_uncovered (q := q.counted frame) frame.length
      huncovered
    rw [hread, hfor, herror] at hq'
    cases hq'
  · intro hcovered
    obtain ⟨⟨d, q'⟩, hd⟩ := AdvDelayQueue.getDelayForIpv4_returns
      (q := q.counted frame) frame.length hb hfour hihl hproto hlength hcovered
    have hfound := AdvDelayQueue.getDelayForIpv4_found hversion hproto hd
    have hanswers : Answers (q.counted frame) frame d := hfound.answers hproto
    refine ⟨d, { q' with packetQueue := K.emplace (u64 (now + d), frame) q'.packetQueue },
      hanswers, ?_, congrArg (K.emplace _) hfound.packetQueue_eq⟩
    rw [hread, hfor, hd]
    rfl

/-- Of the IPv6 packets, those with a 6 in the place of the protocol are served. -/
theorem served_ipv6 {K : ReleaseQueue} (q : AdvDelayQueue K) (now : Nat) {frame : Bytes}
    (hsix : version frame = .ok 6) (hlength : 4 + 40 ≤ frame.length) :
    Served q now frame ↔ ¬ Ipv6Mistaken frame := by
  have hsize : ¬ frame.length < 20 := by omega
  have hread := AdvDelayQueue.readPacket_of_size (q := q) now hsize
  obtain ⟨proto, hproto⟩ := AdvDelayQueue.byteAt_eq_ok frame (4 + 9) (by omega)
  have hproto : protocol frame = .ok proto := hproto
  have hmistaken : Ipv6Mistaken frame ↔ proto ≠ 6 := by
    simp [Ipv6Mistaken, hsix, hproto]
  obtain ⟨hdefault, hthrow⟩ := AdvDelayQueue.getDelayFor_of_not_ipv4 (q := q.counted frame)
    frame.length hsix (by decide) hproto
  rw [hmistaken, not_not]
  constructor
  · rintro ⟨d, q', -, hq', -⟩
    by_contra hne
    obtain ⟨f, hf⟩ := hthrow hne
    rw [hread, hf] at hq'
    cases hq'
  · intro hproto6
    refine ⟨q.delayMs, { q.counted frame with
      packetQueue := K.emplace (u64 (now + q.delayMs), frame) q.packetQueue },
      .inr ⟨fun proto' ip p hselects => ?_, rfl⟩, ?_, rfl⟩
    · have := hselects.version
      rw [hsix] at this
      cases this
    · rw [hread, hdefault hproto6]
      rfl

/-- A packet whose headers are complete is served, in every state of the queue,
if and only if it does not stumble. -/
theorem served_iff {K : ReleaseQueue} (q : AdvDelayQueue K) (now : Nat) (frame : Bytes)
    (hframe : CompleteHeaders frame) :
    Served q now frame ↔ ¬ IcmpUncovered q.rules q.uplink frame ∧ ¬ Ipv6Mistaken frame := by
  cases hframe with
  | @ipv4 b proto hb hfour hihl hproto hlength =>
      have hnotsix : ¬ Ipv6Mistaken frame := by
        rintro ⟨hsix, -⟩
        rw [version_of_byteAt hb, hfour] at hsix
        cases hsix
      rw [served_ipv4 q now hb hfour hihl hproto hlength, and_iff_left hnotsix]
  | ipv6 hsix hlength =>
      have hcovered : ¬ IcmpUncovered q.rules q.uplink frame := by
        rintro ⟨hfour, -⟩
        rw [hsix] at hfour
        cases hfour
      rw [served_ipv6 q now hsix hlength, and_iff_right hcovered]

/-- An echo request from 100.64.0.1 to 10.0.0.1. -/
def echoRequest : Bytes :=
  [0, 0, 8, 0] ++ [0x45, 0, 0, 28, 0, 0, 0, 0, 64, 1, 0x0c, 0xa0, 100, 64, 0, 1, 10, 0, 0, 1] ++
    [8, 0, 0xf7, 0xff, 0, 0, 0, 0]

theorem echoRequest_complete : CompleteHeaders echoRequest := by
  have hproto : protocol echoRequest = .ok 1 := rfl
  exact .ipv4 (b := 0x45) rfl rfl (by decide) hproto (by decide)

/-- An ICMP rule for port 8 of its address. -/
def echoRule : Entry := ⟨1, 0x0100000a, 8, 10, 20, .none⟩

/-- With that rule alone the packet stumbles; with a wild card rule besides it is served. -/
theorem served_iff_echo :
    ¬ Served (AdvDelayQueue.initial (Heap.queue Prod.fst) 20 (storeEntries [] [echoRule]) true) 0
        echoRequest ∧
      Served (AdvDelayQueue.initial (Heap.queue Prod.fst) 20
        (storeEntries [] [{ echoRule with port := 0 }, echoRule]) true) 0 echoRequest := by
  refine ⟨fun h => ?_, (served_iff _ 0 echoRequest echoRequest_complete).mpr ⟨?_, ?_⟩⟩
  · exact ((served_iff _ 0 echoRequest echoRequest_complete).mp h).1
      ⟨rfl, rfl, 0x0100000a, _, rfl, rfl, rfl⟩
  · rintro ⟨-, -, ip, portRules, hip, hrules, hwild⟩
    obtain rfl : 0x0100000a = ip := Except.ok.inj hip
    obtain rfl := Option.some.inj hrules
    cases hwild
  · rintro ⟨hsix, -⟩
    cases hsix

/-- An IPv6 packet without a payload, from fe80::1 to fe80::2. -/
def ipv6Frame : Bytes :=
  [0, 0, 0x86, 0xdd] ++ [0x60, 0, 0, 0, 0, 0, 59, 64] ++
    [0xfe, 0x80, 0, 0, 0, 0, 0, 0, 0, 0, 0, 0, 0, 0, 0, 1] ++
    [0xfe, 0x80, 0, 0, 0, 0, 0, 0, 0, 0, 0, 0, 0, 0, 0, 2]

/-- The echo request takes down a shell that has a rule for port 8 of its
address, the IPv6 packet one that has no rules. -/
theorem frames_stumble :
    (∃ rules, parseRules (fun _ => some (ascii "1 10.0.0.1 8 10 20\n")) (ascii "rules") = .ok rules ∧
      CompleteHeaders echoRequest ∧
      (AdvDelayQueue.initial (Heap.queue Prod.fst) 20 rules true).readPacket 0 echoRequest
        = .error .outOfRange) ∧
    ∃ rules, parseRules (fun _ => some []) (ascii "rules") = .ok rules ∧
      CompleteHeaders ipv6Frame ∧
      (AdvDelayQueue.initial (Heap.queue Prod.fst) 20 rules true).readPacket 0 ipv6Frame
        = .error (.runtimeErrorWith "Data (sz: " (ascii "44) is not an IPv6 packet!")) := by
  have hform : IsRulesFile (ascii "1 10.0.0.1 8 10 20\n") [⟨1, 0x0100000a, 8, 10, 20, .none⟩] := by
    decide +kernel
  refine ⟨⟨storeEntries [] [⟨1, 0x0100000a, 8, 10, 20, .none⟩], ?_, echoRequest_complete, rfl⟩,
    [], rfl, .ipv6 rfl (by decide), rfl⟩
  simp only [parseRules, parseLines_of_entries hform]

end Mahimahi
