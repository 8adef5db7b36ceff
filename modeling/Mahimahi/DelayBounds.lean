import Mahimahi.DelaySwitch

/-!
# How far into a packet the delay rules look

`read_packet` turns away packets that are smaller than an IP header, and the
functions behind it read the packet without looking at its size again. The
header starts at offset 4, though, and what is read last, the ports, lies
where the header length says: `inspection_inside_iff` lists the sizes that a
packet must have for each field that the rules make the code read.
-/

namespace Mahimahi

/-! ## Reads that fail -/

theorem byteAt_cases (pkt : Bytes) (i : Nat) :
    (i < pkt.length ∧ ∃ b, byteAt pkt i = .ok b) ∨
      (pkt.length ≤ i ∧ byteAt pkt i = .error .outOfBounds) := by
  by_cases h : i < pkt.length
  · exact .inl ⟨h, AdvDelayQueue.byteAt_eq_ok pkt i h⟩
  · exact .inr ⟨Nat.le_of_not_lt h, by simp [byteAt, List.getElem?_eq_none (Nat.le_of_not_lt h)]⟩

theorem word_cases (pkt : Bytes) (i : Nat) :
    (i + 4 ≤ pkt.length ∧ ∃ n, word pkt i = .ok n) ∨
      (pkt.length < i + 4 ∧ word pkt i = .error .outOfBounds) := by
  by_cases h : i + 4 ≤ pkt.length
  · exact .inl ⟨h, word_eq_ok pkt i h⟩
  · refine .inr ⟨Nat.lt_of_not_le h, ?_⟩
    unfold word
    rcases byteAt_cases pkt i with ⟨-, b0, h0⟩ | ⟨-, h0⟩
    case inr => rw [h0, error_bind]
    rcases byteAt_cases pkt (i + 1) with ⟨-, b1, h1⟩ | ⟨-, h1⟩
    case inr => rw [h0, ok_bind, h1, error_bind]
    rcases byteAt_cases pkt (i + 2) with ⟨-, b2, h2⟩ | ⟨-, h2⟩
    case inr => rw [h0, ok_bind, h1, ok_bind, h2, error_bind]
    rcases byteAt_cases pkt (i + 3) with ⟨hlt, -⟩ | ⟨-, h3⟩
    case inl => omega
    rw [h0, ok_bind, h1, ok_bind, h2, ok_bind, h3, error_bind]

theorem ntohs_cases (pkt : Bytes) (i : Nat) :
    (i + 2 ≤ pkt.length ∧ ∃ n, ntohs pkt i = .ok n) ∨
      (pkt.length < i + 2 ∧ ntohs pkt i = .error .outOfBounds) := by
  by_cases h : i + 2 ≤ pkt.length
  · exact .inl ⟨h, ntohs_eq_ok pkt i h⟩
  · refine .inr ⟨Nat.lt_of_not_le h, ?_⟩
    unfold ntohs
    rcases byteAt_cases pkt i with ⟨-, b0, h0⟩ | ⟨-, h0⟩
    case inr => rw [h0, error_bind]
    rcases byteAt_cases pkt (i + 1) with ⟨hlt, -⟩ | ⟨-, h1⟩
    case inl => omega
    rw [h0, ok_bind, h1, error_bind]

/-- The bytes up to the end of the address that is compared with the rules. -/
def addressEnd (uplink : Bool) : Nat := if uplink then 24 else 20

/-- The bytes up to the end of the port that is compared with the rules, in a
packet whose header length is `ihl` words. -/
def portEnd (uplink : Bool) (ihl : Nat) : Nat := 4 + ihl * 4 + if uplink then 4 else 2

theorem address_cases (uplink : Bool) (pkt : Bytes) :
    (addressEnd uplink ≤ pkt.length ∧ ∃ ip, address uplink pkt = .ok ip) ∨
      (pkt.length < addressEnd uplink ∧ address uplink pkt = .error .outOfBounds) := by
  cases uplink
  · exact word_cases pkt (4 + 12)
  · exact word_cases pkt (4 + 16)

theorem port_cases {pkt : Bytes} {b : Nat} (uplink : Bool) (hb : byteAt pkt 4 = .ok b) :
    (portEnd uplink (b % 2 ^ 4) ≤ pkt.length ∧ ∃ p, port uplink pkt = .ok p) ∨
      (pkt.length < portEnd uplink (b % 2 ^ 4) ∧ port uplink pkt = .error .outOfBounds) := by
  simp only [port, hb, ok_bind]
  cases uplink
  · exact ntohs_cases pkt (4 + b % 2 ^ 4 * 4)
  · exact ntohs_cases pkt (4 + b % 2 ^ 4 * 4 + 2)

/-! ## The condition -/

/-- No byte beyond the packet is examined for its delay. -/
def StaysInside {K : ReleaseQueue} (q : AdvDelayQueue K) (pkt : Bytes) : Prop :=
  q.getDelayFor pkt pkt.length ≠ .error .outOfBounds

/-- The packet is large enough for the fields that the rules make the code read. -/
structure LargeEnough (rules : DelayRules) (uplink : Bool) (pkt : Bytes) (proto ihl : Nat) : Prop where
  addressFits : rules.lookup proto ≠ none → addressEnd uplink ≤ pkt.length
  portFits : proto = ipprotoTcp ∨ proto = ipprotoUdp → ∀ ip portRules,
    address uplink pkt = .ok ip → portRulesAt rules proto ip = some portRules →
    portRules.lookup DelayRule.wildcardPort = none → portEnd uplink ihl ≤ pkt.length

namespace AdvDelayQueue

variable {K : ReleaseQueue} {q : AdvDelayQueue K} {pkt : Bytes}

theorem port_inside_iff {portRules : PortRules} {b proto : Nat} (sz : Nat)
    (hb : byteAt pkt 4 = .ok b) :
    ((if proto = ipprotoIcmp then .error .outOfRange
      else if proto = ipprotoTcp then q.getDelayForTcp portRules pkt sz
      else if proto = ipprotoUdp then do return (← q.getDelayForUdp portRules pkt, q)
      else .ok (q.delayMs, q) : Except Fault (Nat × AdvDelayQueue K)) ≠ .error .outOfBounds) ↔
      (proto = ipprotoTcp ∨ proto = ipprotoUdp → portEnd q.uplink (b % 2 ^ 4) ≤ pkt.length) := by
  by_cases hicmp : proto = ipprotoIcmp
  · subst hicmp
    simp [ipprotoIcmp, ipprotoTcp, ipprotoUdp]
  rw [if_neg hicmp]
  by_cases htcp : proto = ipprotoTcp
  · rw [if_pos htcp]
    rcases port_cases q.uplink hb with ⟨hfits, p, hp⟩ | ⟨hshort, hp⟩
    · rw [getDelayForTcp_of_port sz hp]
      exact iff_of_true (by cases portRules.lookup p <;> simp) fun _ => hfits
    · exact iff_of_false (by simp [getDelayForTcp, hp])
        fun h => absurd (h (.inl htcp)) (Nat.not_le.mpr hshort)
  rw [if_neg htcp]
  by_cases hudp : proto = ipprotoUdp
  · rw [if_pos hudp]
    rcases port_cases q.uplink hb with ⟨hfits, p, hp⟩ | ⟨hshort, hp⟩
    · rw [getDelayForUdp_of_port hp]
      exact iff_of_true (by cases portRules.lookup p <;> simp) fun _ => hfits
    · exact iff_of_false (by simp [getDelayForUdp, hp])
        fun h => absurd (h (.inr hudp)) (Nat.not_le.mpr hshort)
  · rw [if_neg hudp]
    simp [htcp, hudp]

theorem getDelayForIpv4_inside_iff {b proto : Nat} (sz : Nat) (hb : byteAt pkt 4 = .ok b)
    (hproto : protocol pkt = .ok proto) : q.getDelayForIpv4 pkt sz ≠ .error .outOfBounds ↔
      LargeEnough q.rules q.uplink pkt proto (b % 2 ^ 4) := by
  cases hl : q.rules.lookup proto with
  | none =>
      have hnone (ip : Nat) : portRulesAt q.rules proto ip = none := by
        rw [portRulesAt, hl, Option.bind_none]
      have hok : q.getDelayForIpv4 pkt sz = .ok (q.delayMs, q) := by
        simp only [getDelayForIpv4, hproto, ok_bind, hl]
        rfl
      rw [hok]
      refine ⟨fun _ => ⟨fun h => absurd hl h, fun _ ip portRules _ h => ?_⟩, fun _ h => by cases h⟩
      rw [hnone] at h
      cases h
  | some ipRules =>
      rcases address_cases q.uplink pkt with ⟨hfits, ip, hip⟩ | ⟨hshort, hip⟩
      case inr =>
        have herror : q.getDelayForIpv4 pkt sz = .error .outOfBounds := by
          simp only [getDelayForIpv4, hproto, ok_bind, hl, hip]
          rfl
        exact ⟨fun h => absurd herror h,
          fun h => absurd (h.addressFits (by simp [hl])) (Nat.not_le.mpr hshort)⟩
      have hsame {ip' : Nat} (hip' : address q.uplink pkt = .ok ip') : ip' = ip :=
        Except.ok.inj (hip'.symm.trans hip)
      cases hports : portRulesAt q.rules proto ip with
      | none =>
          rw [getDelayForIpv4_of_no_rules sz hproto hip hports]
          refine ⟨fun _ => ⟨fun _ => hfits, fun _ ip' portRules hip' h => ?_⟩, fun _ h => by cases h⟩
          rw [hsame hip', hports] at h
          cases h
      | some portRules =>
          rw [getDelayForIpv4_of_rules sz hproto hip hports]
          have hthese {ip' : Nat} {portRules' : PortRules} (hip' : address q.uplink pkt = .ok ip')
              (h : portRulesAt q.rules proto ip' = some portRules') : portRules' = portRules := by
            rw [hsame hip', hports] at h
            exact (Option.some.inj h).symm
          cases hwild : portRules.lookup DelayRule.wildcardPort with
          | some rule =>
              refine ⟨fun _ => ⟨fun _ => hfits, fun _ ip' portRules' hip' h hnone => ?_⟩,
                fun _ h => by cases h⟩
              rw [hthese hip' h, hwild] at hnone
              cases hnone
          | none =>
              refine (port_inside_iff sz hb).trans ⟨fun h => ⟨fun _ => hfits,
                fun htransport _ _ _ _ _ => h htransport⟩, fun h htransport => ?_⟩
              exact h.portFits htransport ip portRules hip hports hwild

end AdvDelayQueue

/-- **Staying inside the packet.** For every packet that `read_packet` does not
turn away, every table and both directions: all bytes that are examined are
bytes of the packet exactly when it is not IPv4 or is large enough for the
fields that the rules make the code read. -/
theorem inspection_inside_iff {K : ReleaseQueue} (q : AdvDelayQueue K) (pkt : Bytes)
    (hsize : 20 ≤ pkt.length) : StaysInside q pkt ↔ ∀ b proto, byteAt pkt 4 = .ok b →
      b / 2 ^ 4 = 4 → protocol pkt = .ok proto →
      LargeEnough q.rules q.uplink pkt proto (b % 2 ^ 4) := by
  obtain ⟨b, hb⟩ := AdvDelayQueue.byteAt_eq_ok pkt 4 (by omega)
  obtain ⟨proto, hproto⟩ : ∃ proto, protocol pkt = .ok proto :=
    AdvDelayQueue.byteAt_eq_ok pkt (4 + 9) (by omega)
  have hversion := version_of_byteAt hb
  have hone : (∀ b' proto', byteAt pkt 4 = .ok b' → b' / 2 ^ 4 = 4 → protocol pkt = .ok proto' →
      LargeEnough q.rules q.uplink pkt proto' (b' % 2 ^ 4)) ↔
      (b / 2 ^ 4 = 4 → LargeEnough q.rules q.uplink pkt proto (b % 2 ^ 4)) := by
    refine ⟨fun h hfour => h b proto hb hfour hproto, fun h b' proto' hb' hfour hproto' => ?_⟩
    obtain rfl := Except.ok.inj (hb.symm.trans hb')
    obtain rfl := Except.ok.inj (hproto.symm.trans hproto')
    exact h hfour
  rw [hone]
  by_cases hfour : b / 2 ^ 4 = 4
  · have hipv4 : q.getDelayFor pkt pkt.length = q.getDelayForIpv4 pkt pkt.length := by
      simp only [AdvDelayQueue.getDelayFor, hversion, hfour, ok_bind]
      rfl
    rw [StaysInside, hipv4, AdvDelayQueue.getDelayForIpv4_inside_iff _ hb hproto]
    exact ⟨fun h _ => h, fun h => h hfour⟩
  · -- the IPv6 branch reads nothing but the protocol
    refine iff_of_true ?_ fun h => absurd h hfour
    simp only [StaysInside, AdvDelayQueue.getDelayFor, hversion, ok_bind]
    rw [if_pos hfour]
    by_cases hsix : proto = 6 <;> simp [AdvDelayQueue.getDelayForIpv6, hproto, hsix]

/-- A rule for UDP. -/
def udpRule : DelayRules := storeEntries [] [⟨17, 0x0100000a, 53, 10, 20, .none⟩]

/-- An IPv4 header for UDP from 100.64.0.1 to 10.0.0.1, behind the packet information. -/
def udpHeader : Bytes :=
  [0, 0, 8, 0] ++ [0x45, 0, 0, 20, 0, 0, 0, 0, 64, 17, 0x0c, 0x98, 100, 64, 0, 1, 10, 0, 0, 1]

/-- With the ports behind it nothing else is looked at. -/
theorem inspection_inside_iff_query :
    StaysInside (.initial (Heap.queue Prod.fst) 5 udpRule true) (udpHeader ++ [4, 0, 0, 53]) := by
  refine (inspection_inside_iff _ _ (by decide)).mpr fun b proto hb _ _ => ?_
  obtain rfl : 0x45 = b := Except.ok.inj hb
  exact ⟨fun _ => by decide, fun _ _ _ _ _ _ => by decide⟩

/-- The header alone is let pass, and the port is read two bytes beyond it. -/
theorem bare_header_read_past :
    parseRules (fun _ => some (ascii "17 10.0.0.1 53 10 20\n")) (ascii "rules") = .ok udpRule ∧
    20 ≤ udpHeader.length ∧
    ¬ StaysInside (.initial (Heap.queue Prod.fst) 5 udpRule true) udpHeader := by
  have hform : IsRulesFile (ascii "17 10.0.0.1 53 10 20\n")
      [⟨17, 0x0100000a, 53, 10, 20, .none⟩] := by
    decide +kernel
  refine ⟨?_, by decide, fun h => h ?_⟩
  · simp only [parseRules, parseLines_of_entries hform, udpRule]
  · rfl

end Mahimahi
