import Mathlib.Algebra.BigOperators.Group.List.Basic
import Mahimahi.DelayMatch
import Mahimahi.Run

/-!
# Delays that follow the bytes carried

A TCP rule has a limit for each direction: up to it packets get the one
delay, from it on the other. What counts is how many bytes the rule has
carried before. `AdvDelayQueue` counts them by address and port, and beside
it we keep a log of the packets read, each with its delay, from which the
law can be read (`FollowsBytes`).

The law holds of a run exactly as long as no packet is selected by a wild
card rule for TCP, which is found before the counters are reached, and no
counter runs over (`follows_bytes_iff`).
-/

namespace Mahimahi

/-! ## The rule of a packet can be computed -/

/-- Protocol, address and port of the rule that selects the packet. -/
def selector (rules : DelayRules) (uplink : Bool) (pkt : Bytes) : Option (Nat × Nat × Nat) :=
  match version pkt, protocol pkt, address uplink pkt with
  | .ok 4, .ok proto, .ok ip =>
      match storedRule rules proto ip DelayRule.wildcardPort with
      | some _ => some (proto, ip, DelayRule.wildcardPort)
      | none =>
          if proto = ipprotoTcp ∨ proto = ipprotoUdp then
            match port uplink pkt with
            | .ok p => (storedRule rules proto ip p).map fun _ => (proto, ip, p)
            | .error _ => none
          else none
  | _, _, _ => none

theorem selector_eq_some {rules : DelayRules} {uplink : Bool} {pkt : Bytes} {proto ip p : Nat} :
    selector rules uplink pkt = some (proto, ip, p) ↔ Selects rules uplink pkt proto ip p := by
  constructor
  · intro h
    unfold selector at h
    split at h
    · next proto' ip' hversion hproto hip =>
        split at h
        · next rule hwild =>
            cases h
            exact .wildcard hversion hproto hip (by simp [hwild])
        · next hnone =>
            split at h
            · next htransport =>
                split at h
                · next p' hp =>
                    obtain ⟨rule, hrule, hkey⟩ := Option.map_eq_some_iff.mp h
                    cases hkey
                    exact .port hversion hproto hip hnone htransport hp (by simp [hrule])
                · cases h
            · cases h
    · cases h
  · intro h
    cases h with
    | wildcard hversion hproto hip hsome =>
        obtain ⟨rule, hrule⟩ := Option.ne_none_iff_exists'.mp hsome
        simp [selector, hversion, hproto, hip, hrule]
    | port hversion hproto hip hnone htransport hp hsome =>
        obtain ⟨rule, hrule⟩ := Option.ne_none_iff_exists'.mp hsome
        simp [selector, hversion, hproto, hip, hnone, htransport, hp, hrule]

instance (rules : DelayRules) (uplink : Bool) (pkt : Bytes) (proto ip p : Nat) :
    Decidable (Selects rules uplink pkt proto ip p) :=
  decidable_of_iff _ selector_eq_some

/-! ## What a call of get_delay_for does to the counters -/

namespace AdvDelayQueue

variable {K : ReleaseQueue} {q q' : AdvDelayQueue K} {pkt : Bytes} {sz d : Nat}

/-- A call that returns counts the packet for the TCP rule of its port, or it
counts nothing, and then only a wild card rule for TCP can have selected it. -/
theorem getDelayFor_cases (h : q.getDelayFor pkt sz = .ok (d, q')) :
    (∃ ip p rule, Selects q.rules q.uplink pkt ipprotoTcp ip p ∧ p ≠ DelayRule.wildcardPort ∧
      storedRule q.rules ipprotoTcp ip p = some rule ∧
      d = rule.delayAfter q.uplink (q.byteCounters rule.ip rule.port) ∧ q' = q.carry rule sz) ∨
    (q' = q ∧ ∀ ip p, Selects q.rules q.uplink pkt ipprotoTcp ip p →
      p = DelayRule.wildcardPort) := by
  rcases getDelayFor_found h with ⟨proto, -, hproto, hfound⟩ | ⟨hversion, -, rfl⟩
  case inr => exact .inr ⟨rfl, fun ip p hselects => absurd hselects.version hversion⟩
  have hsame {ip p : Nat} (hselects : Selects q.rules q.uplink pkt ipprotoTcp ip p) :
      proto = ipprotoTcp := Except.ok.inj (hproto.symm.trans hselects.protocol)
  cases hfound with
  | none hnot =>
      refine .inr ⟨rfl, fun ip p hselects => ?_⟩
      obtain rfl := hsame hselects
      exact absurd hselects (hnot ip p)
  | wildcard hwild _ =>
      refine .inr ⟨rfl, fun ip p hselects => ?_⟩
      obtain rfl := hsame hselects
      exact (hwild.unique hselects).2.2
  | tcp htcp hp hselects hrule =>
      subst htcp
      exact .inl ⟨_, _, _, hselects, hp, hrule, rfl, rfl⟩
  | udp hudp _ _ =>
      refine .inr ⟨rfl, fun ip p hselects => ?_⟩
      rw [hudp] at hsame
      exact absurd (hsame hselects) (by decide)

theorem getDelayFor_frame (h : q.getDelayFor pkt sz = .ok (d, q')) :
    q'.delayMs = q.delayMs ∧ q'.rules = q.rules ∧ q'.packetQueue = q.packetQueue := by
  rcases getDelayFor_cases h with ⟨ip, p, rule, -, -, -, -, rfl⟩ | ⟨rfl, -⟩
  · exact ⟨rfl, rfl, rfl⟩
  · exact ⟨rfl, rfl, rfl⟩

end AdvDelayQueue

/-! ## The queue with its log -/

/-- The queue, and the packets that it has read, each with its delay. -/
structure LoggedQueue (K : ReleaseQueue) where
  queue : AdvDelayQueue K
  log : List (Bytes × Nat)

namespace LoggedQueue

variable {K : ReleaseQueue}

def initial (K : ReleaseQueue) (delayMs : Nat) (rules : DelayRules) (uplink : Bool) :
    LoggedQueue K :=
  ⟨.initial K delayMs rules uplink, []⟩

/-- The delay with which `read_packet` queues a packet. -/
def delayOf (q : AdvDelayQueue K) (pkt : Bytes) : Except Fault Nat := do
  return (← (q.counted pkt).getDelayFor pkt pkt.length).1

/-- A call of the ferry, or none when it throws. -/
def step (s : LoggedQueue K) : FerryCall → Option (LoggedQueue K)
  | .readPacket now pkt =>
      match s.queue.readPacket now pkt, delayOf s.queue pkt with
      | .ok q, .ok d => some ⟨q, s.log ++ [(pkt, d)]⟩
      | _, _ => none
  | .writePackets clock =>
      match s.queue.writePackets clock with
      | .ok (_, q) => some { s with queue := q }
      | .error _ => none

end LoggedQueue

/-! ## The law -/

/-- The packets in the log that the TCP rule under `ip` and `p` selects. -/
def carriedBy (rules : DelayRules) (uplink : Bool) (ip p : Nat) (log : List (Bytes × Nat)) :
    List Bytes :=
  (log.map Prod.fst).filter fun pkt => Selects rules uplink pkt ipprotoTcp ip p

/-- Their total size. -/
def bytesBy (rules : DelayRules) (uplink : Bool) (ip p : Nat) (log : List (Bytes × Nat)) : Nat :=
  ((carriedBy rules uplink ip p log).map List.length).sum

section

variable {rules : DelayRules} {uplink : Bool} {ip p : Nat} {log : List (Bytes × Nat)}

theorem carriedBy_concat (pkt : Bytes) (d : Nat) :
    carriedBy rules uplink ip p (log ++ [(pkt, d)]) = carriedBy rules uplink ip p log ++
      if Selects rules uplink pkt ipprotoTcp ip p then [pkt] else [] := by
  by_cases h : Selects rules uplink pkt ipprotoTcp ip p <;> simp [carriedBy, h]

theorem bytesBy_concat (pkt : Bytes) (d : Nat) :
    bytesBy rules uplink ip p (log ++ [(pkt, d)]) = bytesBy rules uplink ip p log +
      if Selects rules uplink pkt ipprotoTcp ip p then pkt.length else 0 := by
  by_cases h : Selects rules uplink pkt ipprotoTcp ip p <;> simp [bytesBy, carriedBy_concat, h]

theorem bytesBy_le_append (rules : DelayRules) (uplink : Bool) (ip p : Nat)
    (before after : List (Bytes × Nat)) :
    bytesBy rules uplink ip p before ≤ bytesBy rules uplink ip p (before ++ after) := by
  simp [bytesBy, carriedBy]

theorem length_carriedBy_le (rules : DelayRules) (uplink : Bool) (ip p : Nat)
    (h : ∀ e ∈ log, 0 < e.1.length) :
    (carriedBy rules uplink ip p log).length ≤ bytesBy rules uplink ip p log := by
  have hpos : ∀ n ∈ (carriedBy rules uplink ip p log).map List.length, 1 ≤ n := by
    intro n hn
    simp only [carriedBy, List.mem_map, List.mem_filter] at hn
    obtain ⟨pkt, ⟨⟨e, he, rfl⟩, -⟩, rfl⟩ := hn
    exact h e he
  simpa [bytesBy] using List.length_le_sum_of_one_le _ hpos

end

namespace LoggedQueue

variable {K : ReleaseQueue}

/-- Each packet of the log had the delay that the bytes before it ask for. -/
def DelaysFollow (s : LoggedQueue K) : Prop :=
  ∀ ip p rule, storedRule s.queue.rules ipprotoTcp ip p = some rule →
    ∀ before pkt d after, s.log = before ++ (pkt, d) :: after →
      Selects s.queue.rules s.queue.uplink pkt ipprotoTcp ip p →
      d = rule.delayAfter s.queue.uplink (bytesBy s.queue.rules s.queue.uplink ip p before)

/-- Once a rule has been over its limit, its packets get the second delay. -/
def NeverBack (s : LoggedQueue K) : Prop :=
  ∀ ip p rule, storedRule s.queue.rules ipprotoTcp ip p = some rule →
    ∀ before later pkt d after, s.log = before ++ later ++ (pkt, d) :: after →
      rule.lim s.queue.uplink ≤ bytesBy s.queue.rules s.queue.uplink ip p before →
      Selects s.queue.rules s.queue.uplink pkt ipprotoTcp ip p →
      d = rule.altDelay s.queue.uplink

/-- The law: delays follow the bytes and never switch back, and the counters
are those of the packets that the TCP rules select, so that no other packet
changes any. -/
structure FollowsBytes (s : LoggedQueue K) : Prop where
  delays : s.DelaysFollow
  neverBack : s.NeverBack
  byteCounters : ∀ ip p, s.queue.byteCounters ip p
    = bytesBy s.queue.rules s.queue.uplink ip p s.log
  pktCounters : ∀ ip p, s.queue.pktCounters ip p
    = (carriedBy s.queue.rules s.queue.uplink ip p s.log).length

/-- The call reads no packet that a wild card rule for TCP selects, and none
that takes the bytes of its rule beyond a `uint64_t`. -/
def Countable (s : LoggedQueue K) : FerryCall → Prop
  | .readPacket _ pkt => ∀ ip p, Selects s.queue.rules s.queue.uplink pkt ipprotoTcp ip p →
      p ≠ DelayRule.wildcardPort ∧
        bytesBy s.queue.rules s.queue.uplink ip p s.log + pkt.length < 2 ^ 64
  | .writePackets _ => True

instance (s : LoggedQueue K) : DecidablePred s.Countable
  | .readPacket _ pkt =>
      decidable_of_iff (∀ x ∈ selector s.queue.rules s.queue.uplink pkt, x.1 = ipprotoTcp →
          x.2.2 ≠ DelayRule.wildcardPort ∧
            bytesBy s.queue.rules s.queue.uplink x.2.1 x.2.2 s.log + pkt.length < 2 ^ 64)
        ⟨fun h _ _ hselects => h _ (selector_eq_some.mpr hselects) rfl,
          fun h x hx htcp => h x.2.1 x.2.2 (htcp ▸ selector_eq_some.mp hx)⟩
  | .writePackets _ => .isTrue trivial

/-! ## One step -/

theorem DelaysFollow.neverBack {s : LoggedQueue K} (h : s.DelaysFollow) : s.NeverBack := by
  intro ip p rule hrule before later pkt d after hlog hlim hselects
  have hmore := bytesBy_le_append s.queue.rules s.queue.uplink ip p before later
  rw [h ip p rule hrule _ pkt d after hlog hselects, DelayRule.delayAfter, if_neg]
  omega

/-- What a step does: it reads a packet and queues it with its delay, or it
writes packets and leaves everything else as it is. -/
theorem step_cases {s s' : LoggedQueue K} {call : FerryCall} (h : s.step call = some s') :
    (∃ now pkt d q, call = .readPacket now pkt ∧ 20 ≤ pkt.length ∧
      (s.queue.counted pkt).getDelayFor pkt pkt.length = .ok (d, q) ∧
      s' = ⟨{ q with packetQueue := K.emplace (u64 (now + d), pkt) q.packetQueue },
        s.log ++ [(pkt, d)]⟩) ∨
    (∃ clock packets, call = .writePackets clock ∧
      s' = { s with queue := { s.queue with packetQueue := packets } }) := by
  cases call with
  | readPacket now pkt =>
      refine .inl ?_
      by_cases hsize : pkt.length < 20
      · simp [step, AdvDelayQueue.readPacket, hsize] at h
      · simp only [step, delayOf, AdvDelayQueue.readPacket_of_size now hsize] at h
        cases hdelay : (s.queue.counted pkt).getDelayFor pkt pkt.length with
        | error f => simp [hdelay] at h
        | ok r =>
            obtain ⟨d, q⟩ := r
            simp only [hdelay, ok_bind, pure_eq_ok, Option.some.injEq] at h
            exact ⟨now, pkt, d, q, rfl, Nat.le_of_not_lt hsize, hdelay, h.symm⟩
  | writePackets clock =>
      refine .inr ⟨clock, ?_⟩
      simp only [step] at h
      cases hwrite : s.queue.writePackets clock with
      | error f => simp [hwrite] at h
      | ok r =>
          obtain ⟨written, q⟩ := r
          rw [hwrite] at h
          obtain ⟨⟨written', left⟩, -, hq⟩ := bind_eq_ok.mp hwrite
          cases hq
          cases h
          exact ⟨left, rfl, rfl⟩

/-- What holds of the queue with its log beside the law. -/
structure Inv (rules : DelayRules) (uplink : Bool) (s : LoggedQueue K) : Prop where
  rules : s.queue.rules = rules
  uplink : s.queue.uplink = uplink
  sizes : ∀ e ∈ s.log, 0 < e.1.length
  law : s.FollowsBytes

/-- One more packet in the log, with the delay that the law asks for. -/
theorem DelaysFollow.concat {s : LoggedQueue K} {q : AdvDelayQueue K} (pkt : Bytes) (d : Nat)
    (h : s.DelaysFollow) (hrules : q.rules = s.queue.rules) (huplink : q.uplink = s.queue.uplink)
    (hd : ∀ ip p rule, storedRule q.rules ipprotoTcp ip p = some rule →
      Selects q.rules q.uplink pkt ipprotoTcp ip p →
      d = rule.delayAfter q.uplink (bytesBy q.rules q.uplink ip p s.log)) :
    (⟨q, s.log ++ [(pkt, d)]⟩ : LoggedQueue K).DelaysFollow := by
  intro ip p rule hrule before x dx after hlog hselects
  rcases List.eq_nil_or_concat after with rfl | ⟨after, last, rfl⟩
  · obtain ⟨rfl, hlast⟩ := List.append_inj' hlog rfl
    cases hlast
    exact hd ip p rule hrule hselects
  · have hinit : s.log = before ++ (x, dx) :: after := by
      have : s.log ++ [(pkt, d)] = (before ++ (x, dx) :: after) ++ [last] := by simpa using hlog
      exact (List.append_inj' this rfl).1
    simp only [hrules, huplink] at hrule hselects ⊢
    exact h ip p rule hrule before x dx after hinit hselects

theorem Inv.concat_quiet {rules : DelayRules} {uplink : Bool} {s : LoggedQueue K} {pkt : Bytes}
    {packets : K.Carrier} {numBytes d : Nat} (h : s.Inv rules uplink) (hsize : 0 < pkt.length)
    (hquiet : ∀ ip p, ¬ Selects rules uplink pkt ipprotoTcp ip p) :
    (⟨{ s.queue with packetQueue := packets, numBytes := numBytes }, s.log ++ [(pkt, d)]⟩ :
      LoggedQueue K).Inv rules uplink := by
  obtain ⟨rfl, rfl, hsizes, hlaw⟩ := h
  have hdelays := hlaw.delays.concat pkt d
    (q := { s.queue with packetQueue := packets, numBytes := numBytes }) rfl rfl
    fun ip p _ _ hselects => absurd hselects (hquiet ip p)
  refine ⟨rfl, rfl, ?_, hdelays, hdelays.neverBack, fun ip p => ?_, fun ip p => ?_⟩
  · intro e he
    rcases List.mem_append.mp he with he | he
    · exact hsizes e he
    · rw [List.mem_singleton.mp he]
      exact hsize
  · simp only [bytesBy_concat, hquiet, if_false, Nat.add_zero]
    exact hlaw.byteCounters ip p
  · simp only [carriedBy_concat, hquiet, if_false, List.append_nil]
    exact hlaw.pktCounters ip p

theorem Inv.concat_carry {rules : DelayRules} {uplink : Bool} {s : LoggedQueue K} {pkt : Bytes}
    {packets : K.Carrier} {numBytes ip p : Nat} {rule : DelayRule} (hkeyed : Keyed rules)
    (h : s.Inv rules uplink) (hsize : 0 < pkt.length)
    (hselects : Selects rules uplink pkt ipprotoTcp ip p)
    (hrule : storedRule rules ipprotoTcp ip p = some rule)
    (hfits : bytesBy rules uplink ip p s.log + pkt.length < 2 ^ 64) :
    (⟨{ s.queue.carry rule pkt.length with packetQueue := packets, numBytes := numBytes },
      s.log ++ [(pkt, rule.delayAfter uplink (s.queue.byteCounters rule.ip rule.port))]⟩ :
      LoggedQueue K).Inv rules uplink := by
  obtain ⟨rfl, rfl⟩ := hkeyed _ _ _ _ hrule
  obtain ⟨rfl, rfl, hsizes, hlaw⟩ := h
  have hdelays := hlaw.delays.concat pkt
    (rule.delayAfter s.queue.uplink (s.queue.byteCounters rule.ip rule.port))
    (q := { s.queue.carry rule pkt.length with packetQueue := packets, numBytes := numBytes })
    rfl rfl fun ip p rule' hrule' hselects' => by
      obtain ⟨-, rfl, rfl⟩ := hselects.unique hselects'
      obtain rfl := Option.some.inj (hrule'.symm.trans hrule)
      rw [hlaw.byteCounters]
      rfl
  have hsame {ip p : Nat} : Selects s.queue.rules s.queue.uplink pkt ipprotoTcp ip p ↔
      ip = rule.ip ∧ p = rule.port := by
    constructor
    · intro hselects'
      exact (hselects.unique hselects').2
    · rintro ⟨rfl, rfl⟩
      exact hselects
  have hcount := length_carriedBy_le s.queue.rules s.queue.uplink rule.ip rule.port hsizes
  refine ⟨rfl, rfl, ?_, hdelays, hdelays.neverBack, fun ip p => ?_, fun ip p => ?_⟩
  · intro e he
    rcases List.mem_append.mp he with he | he
    · exact hsizes e he
    · rw [List.mem_singleton.mp he]
      exact hsize
  · simp only [AdvDelayQueue.carry, AdvDelayQueue.addTo, bytesBy_concat, hsame,
      hlaw.byteCounters]
    by_cases hkey : ip = rule.ip ∧ p = rule.port
    · obtain ⟨rfl, rfl⟩ := hkey
      simp only [and_self, if_true]
      exact u64_of_lt hfits
    · simp only [hkey, if_false, Nat.add_zero]
  · simp only [AdvDelayQueue.carry, AdvDelayQueue.addTo, carriedBy_concat, hsame,
      hlaw.pktCounters]
    by_cases hkey : ip = rule.ip ∧ p = rule.port
    · obtain ⟨rfl, rfl⟩ := hkey
      simp only [and_self, if_true, List.length_append, List.length_singleton]
      exact u64_of_lt (by omega)
    · simp only [hkey, if_false, List.append_nil]

/-- A countable call keeps the law. -/
theorem Inv.step {rules : DelayRules} {uplink : Bool} {s s' : LoggedQueue K} {call : FerryCall}
    (hkeyed : Keyed rules) (h : s.Inv rules uplink) (hstep : s.step call = some s')
    (hcall : s.Countable call) : s'.Inv rules uplink := by
  rcases step_cases hstep with ⟨now, pkt, d, q, rfl, hsize, hdelay, rfl⟩ | ⟨clock, packets, rfl, rfl⟩
  · have hrules := h.rules
    have huplink := h.uplink
    subst hrules huplink
    rcases AdvDelayQueue.getDelayFor_cases hdelay with
      ⟨ip, p, rule, hselects, -, hrule, rfl, rfl⟩ | ⟨rfl, hwild⟩
    · exact h.concat_carry hkeyed (by omega) hselects hrule (hcall ip p hselects).2
    · exact h.concat_quiet (by omega) fun ip p hselects =>
        (hcall ip p hselects).1 (hwild ip p hselects)
  · exact ⟨h.rules, h.uplink, h.sizes, h.law.delays, h.law.neverBack, h.law.byteCounters,
      h.law.pktCounters⟩

/-- After any other call the counters are wrong. -/
theorem countable_of_law {rules : DelayRules} {uplink : Bool} {s s' : LoggedQueue K}
    {call : FerryCall} (hkeyed : Keyed rules) (h : s.Inv rules uplink)
    (hstep : s.step call = some s') (hlaw : s'.FollowsBytes) : s.Countable call := by
  rcases step_cases hstep with ⟨now, pkt, d, q, rfl, hsize, hdelay, rfl⟩ | ⟨clock, packets, rfl, rfl⟩
  case inr => trivial
  obtain ⟨rfl, rfl, -, hbefore⟩ := h
  intro ip p hselects
  rcases AdvDelayQueue.getDelayFor_cases hdelay with
    ⟨ip', p', rule, hselects', hne, hrule, rfl, rfl⟩ | ⟨rfl, hwild⟩
  · obtain ⟨-, rfl, rfl⟩ := hselects'.unique hselects
    obtain ⟨rfl, rfl⟩ := hkeyed _ _ _ _ hrule
    refine ⟨hne, ?_⟩
    have hbytes := hlaw.byteCounters rule.ip rule.port
    have hlt : u64 (s.queue.byteCounters rule.ip rule.port + pkt.length) < 2 ^ 64 :=
      Nat.mod_lt _ (by decide)
    simp only [AdvDelayQueue.carry, AdvDelayQueue.addTo, AdvDelayQueue.counted, and_self, if_true,
      bytesBy_concat, if_pos hselects] at hbytes
    omega
  · exfalso
    have hpkts := hlaw.pktCounters ip p
    simp only [AdvDelayQueue.counted, carriedBy_concat, if_pos hselects, hbefore.pktCounters,
      List.length_append, List.length_singleton] at hpkts
    omega

theorem inv_initial (K : ReleaseQueue) (delayMs : Nat) (rules : DelayRules) (uplink : Bool) :
    (initial K delayMs rules uplink).Inv rules uplink := by
  have hdelays : (initial K delayMs rules uplink).DelaysFollow := by
    intro ip p rule _ before pkt d after hlog
    simp [initial] at hlog
  exact ⟨rfl, rfl, by simp [initial], hdelays, hdelays.neverBack, fun _ _ => rfl, fun _ _ => rfl⟩

/-- With any rules that `parse_rules` returns, the law holds all along a run if
and only if each of its calls is countable. -/
theorem follows_bytes_iff (files : Bytes → Option Bytes) (rulesFile : Bytes) (rules : DelayRules)
    (hrules : parseRules files rulesFile = .ok rules) (K : ReleaseQueue) (delayMs : Nat)
    (uplink : Bool) (calls : List FerryCall) :
    Always step FollowsBytes (initial K delayMs rules uplink) calls ↔
      EachStep step Countable (initial K delayMs rules uplink) calls := by
  have hkeyed := keyed_parseRules hrules
  refine always_iff_eachStep (I := Inv rules uplink) ?_ ?_ ?_ (inv_initial K delayMs rules uplink)
  · intro s h
    exact h.law
  · intro s call s' h hstep hcall
    exact h.step hkeyed hstep hcall
  · intro s call s' h hstep hlaw
    exact countable_of_law hkeyed h hstep hlaw

/-- A rule for port 443 that switches after 40 bytes. -/
def switching : DelayRules := storeEntries [] [⟨6, 0x0100000a, 443, 10, 20, .fwd 40 30⟩]

/-- A TCP packet of 44 bytes to port 443 of 10.0.0.1. -/
def toServer : Bytes :=
  [0, 0, 8, 0] ++ [0x45, 0, 0, 40, 0, 0, 0, 0, 64, 6, 0x0c, 0x8f, 100, 64, 0, 1, 10, 0, 0, 1] ++
    [0xc0, 0, 1, 0xbb, 0, 0, 0, 0, 0, 0, 0, 0, 0x50, 0x02, 0xff, 0xff, 0x7f, 0xe5, 0, 0]

/-- Three packets for that rule. -/
def threeToServer : List FerryCall :=
  [.readPacket 0 toServer, .readPacket 1 toServer, .writePackets fun _ => 10,
    .readPacket 12 toServer]

/-- The first has the first delay, the others the second. -/
theorem follows_bytes_iff_threeToServer :
    Always step FollowsBytes (initial (Heap.queue Prod.fst) 5 switching true) threeToServer ∧
      (threeToServer.foldlM step (initial (Heap.queue Prod.fst) 5 switching true)).map
        (fun s => s.log.map Prod.snd) = some [10, 30, 30] := by
  have hform : IsRulesFile (ascii "6 10.0.0.1 443 10 20 40 30\n")
      [⟨6, 0x0100000a, 443, 10, 20, .fwd 40 30⟩] := by
    decide +kernel
  have hrules : parseRules (fun _ => some (ascii "6 10.0.0.1 443 10 20 40 30\n")) (ascii "rules")
      = .ok switching := by
    simp only [parseRules, parseLines_of_entries hform, switching]
  exact ⟨(follows_bytes_iff _ _ _ hrules _ 5 true threeToServer).mpr (by decide +kernel),
    by decide +kernel⟩

/-- The same rule for all ports. -/
def wildcard : DelayRules := storeEntries [] [⟨6, 0x0100000a, 0, 10, 20, .fwd 40 30⟩]

/-- It does not switch, and counts nothing: the second packet has the delay of
the first, though the rule had carried 44 bytes by then. -/
theorem wildcard_never_switches :
    parseRules (fun _ => some (ascii "6 10.0.0.1 0 10 20 40 30\n")) (ascii "rules") = .ok wildcard ∧
    (((initial (Heap.queue Prod.fst) 5 wildcard true).step (.readPacket 0 toServer)).bind fun s =>
      s.step (.readPacket 1 toServer)).map (fun s => (s.log.map Prod.snd,
        s.queue.byteCounters 0x0100000a 0, s.queue.pktCounters 0x0100000a 0)) = some ([10, 10], 0, 0) ∧
    ¬ Always step FollowsBytes (initial (Heap.queue Prod.fst) 5 wildcard true)
      [.readPacket 0 toServer, .readPacket 1 toServer] := by
  have hform : IsRulesFile (ascii "6 10.0.0.1 0 10 20 40 30\n")
      [⟨6, 0x0100000a, 0, 10, 20, .fwd 40 30⟩] := by
    decide +kernel
  refine ⟨?_, by decide +kernel, fun h => ?_⟩
  · simp only [parseRules, parseLines_of_entries hform, wildcard]
  have heval : (((initial (Heap.queue Prod.fst) 5 wildcard true).step (.readPacket 0 toServer)).bind
      fun s => s.step (.readPacket 1 toServer)).map (fun s => (s.log, s.queue.rules, s.queue.uplink))
        = some ([(toServer, 10), (toServer, 10)], wildcard, true) := by
    rfl
  obtain ⟨s₂, hs₂, hfields⟩ := Option.map_eq_some_iff.mp heval
  obtain ⟨s₁, hs₁, hs₂⟩ := Option.bind_eq_some_iff.mp hs₂
  obtain ⟨hlog, hrules, huplink⟩ : s₂.log = [(toServer, 10), (toServer, 10)] ∧
      s₂.queue.rules = wildcard ∧ s₂.queue.uplink = true := by simpa using hfields
  have hlaw : s₂.FollowsBytes := (h.2 s₁ hs₁).2 s₂ hs₂
  have hdelay := hlaw.delays 0x0100000a 0 (.ofFwdLim 6 0x0100000a 0 10 20 40 30)
    (by rw [hrules]; rfl) [(toServer, 10)] toServer 10 [] hlog
    (by rw [hrules, huplink]; decide +kernel)
  rw [hrules, huplink] at hdelay
  exact absurd hdelay (by decide +kernel)

end LoggedQueue

end Mahimahi
