import Mahimahi.LinkClock

/-!
# Opportunities at which nothing stands in the way

What `rationalize` asserts of a packet being sent is that it has arrived before
the opportunity, that it is not larger than the opportunity, and that some of
it is left. With a discipline that hands out its front when it is asked for it
(`GivesFront`) that comes down to a condition on all the packets in the link
(`Loaded`): one opportunity keeps it (`Loaded.deliver`), and since opportunities
come in the order of time, so does the whole loop (`Loaded.rationalize`).
-/

namespace Mahimahi

/-- A discipline whose `dequeue` gives the front and takes nothing else. -/
structure GivesFront (Q : Type) [AbstractPacketQueue Q] where
  contents : Q → List QueuedPacket
  Inv : Q → Prop
  empty_iff {q : Q} : AbstractPacketQueue.empty q = true ↔ contents q = []
  dequeue (env : Env) {q : Q} {p : QueuedPacket} {ps : List QueuedPacket} : Inv q →
    contents q = p :: ps → ∃ q', AbstractPacketQueue.dequeue env q = .ok (p, q') ∧ Inv q' ∧
      contents q' = ps

namespace LinkQueue

variable {tr : Trace} {Q : Type} [AbstractPacketQueue Q] {D : GivesFront Q} {t : Nat}
  {q q₁ : LinkQueue tr Q}

/-- What the assertions ask for at an opportunity at time `t`, of every packet
in the link. -/
structure Loaded (D : GivesFront Q) (t : Nat) (q : LinkQueue tr Q) : Prop where
  inv : D.Inv q.packetQueue
  packets : ∀ p ∈ q.inTransit ++ D.contents q.packetQueue,
    p.arrivalTime ≤ t ∧ 0 < p.size ∧ p.size ≤ packetSize
  left_le : q.packetInTransitBytesLeft ≤ q.packetInTransit.size
  writable : ∀ contents ∈ q.outputQueue, contents ≠ []

theorem Loaded.mono {t' : Nat} (h : q.Loaded D t) (ht : t ≤ t') : q.Loaded D t' :=
  ⟨h.inv, fun p hp => ⟨Nat.le_trans (h.packets p hp).1 ht, (h.packets p hp).2⟩, h.left_le,
    h.writable⟩

theorem Loaded.fetch (world : Nat → Env) (h : q.Loaded D t) :
    LinkQueue.fetch world q = .ok none ∨
      ∃ q₁, LinkQueue.fetch world q = .ok (some q₁) ∧ InTransit t q₁ ∧ q₁.Loaded D t ∧
        D.contents q₁.packetQueue <:+ D.contents q.packetQueue := by
  by_cases hzero : q.packetInTransitBytesLeft = 0
  · cases hqueued : D.contents q.packetQueue with
    | nil =>
        have hempty := D.empty_iff.mpr hqueued
        exact .inl (by simp [LinkQueue.fetch, hzero, hempty])
    | cons p rest =>
        have hempty : AbstractPacketQueue.empty q.packetQueue = false := by
          rw [← Bool.not_eq_true, D.empty_iff, hqueued]
          exact List.cons_ne_nil _ _
        obtain ⟨packetQueue, hd, hinv, hrest⟩ := D.dequeue (world q.asked.length) h.inv hqueued
        obtain ⟨harr, hpos, hsize⟩ := h.packets p (by simp [hqueued])
        have hu : u32 p.size = p.size := u32_of_lt (Nat.lt_of_le_of_lt hsize (by decide))
        have hf : LinkQueue.fetch world q = .ok (some { q with
            packetQueue := packetQueue
            packetInTransit := p
            packetInTransitBytesLeft := p.size
            asked := q.asked ++ [q.packetQueue] }) := by
          simp [LinkQueue.fetch, hzero, hempty, hd, hu]
        refine .inr ⟨_, hf, ⟨harr, hsize, hpos, Nat.le_refl _⟩,
          ⟨hinv, fun p' hp' => h.packets p' ?_, Nat.le_refl _, h.writable⟩, ?_⟩
        · -- the packet that is in transit now is the one that was queued first
          simp only [inTransit, if_neg (Nat.ne_of_gt hpos), hrest, List.singleton_append] at hp'
          rw [hqueued]
          exact List.mem_append_right _ hp'
        · rw [hrest]
          exact List.suffix_cons p rest
  · have hone : q.inTransit = [q.packetInTransit] := if_neg hzero
    obtain ⟨harr, -, hsize⟩ := h.packets q.packetInTransit (by simp [hone])
    exact .inr ⟨q, by simp [LinkQueue.fetch, hzero],
      ⟨harr, Nat.le_trans h.left_le hsize, Nat.pos_of_ne_zero hzero, h.left_le⟩, h,
      List.suffix_refl _⟩

theorem Loaded.send (h : q.Loaded D t) (amount : Nat) (ht : InTransit t q) :
    (q.send t amount).Loaded D t ∧ (q.send t amount).packetQueue = q.packetQueue := by
  have hone : q.inTransit = [q.packetInTransit] := if_neg (Nat.ne_of_gt ht.pos)
  have hpackets := h.packets
  rw [hone] at hpackets
  simp only [LinkQueue.send]
  split
  · next hdone =>
      refine ⟨⟨h.inv, fun p hp => ?_, by simp [hdone], fun contents hc => ?_⟩, rfl⟩
      · simp only [inTransit, hdone, if_true, List.nil_append] at hp
        exact hpackets p (List.mem_append_right _ hp)
      · rcases List.mem_append.mp hc with hc | hc
        · exact h.writable contents hc
        · obtain rfl := List.mem_singleton.mp hc
          have hpos := (hpackets q.packetInTransit (by simp)).2.1
          intro hnil
          simp [QueuedPacket.size, hnil] at hpos
  · next hleft =>
      refine ⟨⟨h.inv, fun p hp => ?_, ?_, h.writable⟩, rfl⟩
      · simp only [inTransit, if_neg hleft] at hp
        exact hpackets p hp
      · have := h.left_le
        simp only
        omega

/-- One opportunity: it does not fail, and the queue only gives. -/
theorem Loaded.deliver (world : Nat → Env) (h : q.Loaded D q.nextDeliveryTime) :
    ∃ q', LinkQueue.deliver world q = .ok q' ∧ q'.Loaded D q.nextDeliveryTime ∧
      D.contents q'.packetQueue <:+ D.contents q.packetQueue := by
  unfold LinkQueue.deliver
  refine loop_total Fault.diverges
    (I := fun s : Nat × LinkQueue tr Q => s.2.Loaded D q.nextDeliveryTime ∧
      D.contents s.2.packetQueue <:+ D.contents q.packetQueue)
    (μ := fun s => s.1) ?_ ⟨⟨h.inv, h.packets, h.left_le, h.writable⟩, List.suffix_refl _⟩
    (Nat.lt_succ_self _)
  rintro ⟨bytesLeft, s⟩ ⟨hs, hsuffix⟩
  rw [sendTurn]
  by_cases hzero : bytesLeft = 0
  · exact .inr ⟨s, if_pos hzero, hs, hsuffix⟩
  · rw [if_neg hzero]
    rcases hs.fetch world with hnone | ⟨s₁, hf, ht, hs₁, hsuffix₁⟩
    · exact .inr ⟨s, by rw [hnone]; rfl, hs, hsuffix⟩
    · obtain ⟨hs₂, hqueue⟩ := hs₁.send (min bytesLeft s₁.packetInTransitBytesLeft) ht
      have hpos := ht.pos
      have hlt : bytesLeft - min bytesLeft s₁.packetInTransitBytesLeft < bytesLeft := by omega
      refine .inl ⟨(bytesLeft - min bytesLeft s₁.packetInTransitBytesLeft,
        s₁.send q.nextDeliveryTime (min bytesLeft s₁.packetInTransitBytesLeft)), ?_,
        ⟨hs₂, ?_⟩, hlt⟩
      · simp only [hf, ok_bind, ht.arrived, ht.le_packetSize, ht.pos, ht.le_size, decide_true,
          assertThat_true, pure_eq_ok]
      · show D.contents (s₁.send q.nextDeliveryTime _).packetQueue <:+ _
        rw [hqueue]
        exact hsuffix₁.trans hsuffix

/-- The link is emulated up to `now` without a failure, and what is queued then
is what is left of the queue. -/
theorem Loaded.rationalize {start T now : Nat} (world : Nat → Env) (hwrap : tr.NoWraparound start T)
    (hnow : now ≤ T) (hq : q.OnSchedule start T) (h : q.Loaded D q.nextDeliveryTime) :
    ∃ q', q.rationalize world now = .ok q' ∧ q'.OnSchedule start T ∧
      q'.Loaded D q'.nextDeliveryTime ∧ now < q'.nextDeliveryTime ∧
      D.contents q'.packetQueue <:+ D.contents q.packetQueue := by
  unfold LinkQueue.rationalize
  refine loop_total Fault.diverges
    (I := fun s : LinkQueue tr Q => s.OnSchedule start T ∧ s.Loaded D s.nextDeliveryTime ∧
      D.contents s.packetQueue <:+ D.contents q.packetQueue)
    (μ := turnsLeft now) ?_ ⟨hq, h, List.suffix_refl _⟩ (turnsLeft_lt now q)
  rintro s ⟨hs, hloaded, hsuffix⟩
  by_cases hdue : s.nextDeliveryTime ≤ now
  · obtain ⟨s', hd, hloaded', hsuffix'⟩ := hloaded.deliver world
    have hb : whileDo (isDue now) (LinkQueue.deliver world) s = .ok (.inl s') :=
      whileDo_again.mpr ⟨decide_eq_true hdue, hd⟩
    exact .inl ⟨s', hb, ⟨(hs.deliver hwrap hnow hdue hd).2,
      hloaded'.mono (hs.next_le hwrap hnow hdue hd), hsuffix'.trans hsuffix⟩,
      turnsLeft_deliver hwrap hs hnow hdue hd⟩
  · exact .inr ⟨s, whileDo_leave.mpr ⟨decide_eq_false hdue, rfl⟩, hs, hloaded, by omega, hsuffix⟩

end LinkQueue

end Mahimahi
