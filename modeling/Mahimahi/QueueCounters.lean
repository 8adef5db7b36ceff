import Mahimahi.LinkLog

/-!
# The counters of a queue that only grows

The limits of a drop-tail queue are `unsigned int`s and its counters are
`int`s; an infinite queue has the counters without the limits. So a queue can
be asked to hold more than it can count.

`QueueType.admitted` is what a queue holds when the limit test is made on
unbounded sums. The real counters follow it for as long as the bytes held stay
below `2^31` (`offer_cases`), and the packet that takes them there makes the
next counter read a negative number. `countsExactly_iff` is the induction over
the packets offered; `small_iff` says which limits keep every sequence of
packets below that point.
-/

namespace Mahimahi

/-- The types whose `enqueue` decides by the sizes alone, or not at all. -/
def QueueType.DecidesBySize : QueueType → Prop
  | .infinite => True
  | .droptail l => l.Accepted
  | _ => False

namespace QueueType

/-- The limit test for `p`, on the exact sum, in a queue that holds `held`. -/
def passes (t : QueueType) (held : List QueuedPacket) (p : QueuedPacket) : Bool :=
  match t with
  | .droptail l => l.goodWith (bytesOf held + p.size) (held.length + 1)
  | _ => true

/-- What the queue holds after `p` has been offered to it. -/
def offer (t : QueueType) (held : List QueuedPacket) (p : QueuedPacket) : List QueuedPacket :=
  if t.passes held p then held ++ [p] else held

/-- What it holds after all the packets have been offered. -/
def admitted (t : QueueType) (held packets : List QueuedPacket) : List QueuedPacket :=
  packets.foldl t.offer held

/-- Limits that no sequence of packets can fill beyond what an `int` counts. -/
def Small : QueueType → Prop
  | .droptail l => (0 < l.byteLimit ∧ l.byteLimit < 2 ^ 31) ∨
      (0 < l.packetLimit ∧ l.packetLimit * packetSize < 2 ^ 31)
  | _ => False

variable {t : QueueType}

theorem offer_extends (t : QueueType) (held : List QueuedPacket) (p : QueuedPacket) :
    held <+: t.offer held p := by
  unfold offer
  split
  · exact List.prefix_append ..
  · exact List.prefix_refl _

theorem admitted_extends (t : QueueType) (packets : List QueuedPacket) :
    ∀ held, held <+: t.admitted held packets := by
  induction packets with
  | nil => exact fun held => List.prefix_refl _
  | cons p packets ih => exact fun held => (t.offer_extends held p).trans (ih _)

theorem bytesOf_le_admitted (t : QueueType) (held packets : List QueuedPacket) :
    bytesOf held ≤ bytesOf (t.admitted held packets) := by
  obtain ⟨more, hmore⟩ := t.admitted_extends packets held
  rw [← hmore, bytesOf_append]
  omega

/-- Packets that keep the limits all together are all admitted. -/
theorem admitted_of_holds {l : Limits} : ∀ {packets held : List QueuedPacket},
    l.Holds (held ++ packets) → (droptail l).admitted held packets = held ++ packets
  | [], held, _ => (List.append_nil held).symm
  | p :: packets, held, h => by
      have hp : (droptail l).passes held p = true := by
        refine Limits.goodWith_mono ?_ ?_ h
        · simp only [bytesOf_append, bytesOf_cons]
          omega
        · simp only [List.length_append, List.length_cons]
          omega
      have hrest : l.Holds ((held ++ [p]) ++ packets) := by simpa using h
      show (droptail l).admitted ((droptail l).offer held p) packets = _
      rw [offer, if_pos hp, admitted_of_holds hrest, List.append_assoc, List.singleton_append]

end QueueType

/-- A packet that the link reads: not empty, and not larger than the maximum. -/
def QueuedPacket.Sendable (p : QueuedPacket) : Prop := 0 < p.size ∧ p.size ≤ packetSize

instance (p : QueuedPacket) : Decidable p.Sendable := inferInstanceAs (Decidable (_ ∧ _))

namespace PacketQueue

/-- Both counters hold the exact totals, and the methods that read them return. -/
structure SizesExact (q : PacketQueue .machine) : Prop where
  bytes : q.store.queueSizeInBytes = bytesOf q.contents
  packets : q.store.queueSizeInPackets = q.contents.length
  size_bytes : AbstractPacketQueue.sizeBytes q = .ok (bytesOf q.contents)
  size_packets : AbstractPacketQueue.sizePackets q = .ok q.contents.length

/-- The test that a drop-tail queue makes before it accepts `p` is the one on
the exact sum. -/
def TestExact (p : QueuedPacket) : PacketQueue .machine → Prop
  | droptail q => q.base.goodWithPacket p = .ok
      (q.base.limits.goodWith (bytesOf q.base.internalQueue + p.size)
        (q.base.internalQueue.length + 1))
  | _ => True

/-- All along a sequence of `enqueue` calls the counters and the tests are
exact, and no call fails. -/
def CountsExactly : PacketQueue .machine → List QueuedPacket → Prop
  | q, [] => q.SizesExact
  | q, p :: packets => q.SizesExact ∧ q.TestExact p ∧
      ∀ env, ∃ q', q.enqueue env p = .ok q' ∧ CountsExactly q' packets

/-- A queue of type `t` that holds `held`, within its limits. -/
inductive Holding (t : QueueType) (held : List QueuedPacket) : PacketQueue .machine → Prop
  | infinite {q} : t = .infinite → q.store.internalQueue = held → Holding t held (infinite q)
  | droptail {q} : t = .droptail q.base.limits → q.base.internalQueue = held →
      q.base.limits.Holds held → Holding t held (droptail q)

variable {t : QueueType} {held packets : List QueuedPacket} {p : QueuedPacket}
  {q : PacketQueue .machine}

theorem Holding.contents (h : Holding t held q) : q.contents = held := by
  cases h with
  | infinite _ hq => exact hq
  | droptail _ hq _ => exact hq

theorem holding_initial (ht : t.DecidesBySize) (now : Nat) :
    Holding t [] (getPacketQueue .machine now t) := by
  cases t with
  | infinite => exact .infinite rfl rfl
  | droptail l => exact .droptail rfl rfl (Limits.holds_nil l)
  | drophead | codel | pie => exact ht.elim

theorem length_le_bytesOf : ∀ {ps : List QueuedPacket}, (∀ p ∈ ps, p.Sendable) →
    ps.length ≤ bytesOf ps
  | [], _ => Nat.le_refl 0
  | p :: ps, h => by
      have hp := (h p List.mem_cons_self).1
      have hrest := length_le_bytesOf fun p' hp' => h p' (List.mem_cons_of_mem _ hp')
      simp only [List.length_cons, bytesOf_cons]
      omega

theorem bytesOf_le_packetSize : ∀ {ps : List QueuedPacket}, (∀ p ∈ ps, p.Sendable) →
    bytesOf ps ≤ ps.length * packetSize
  | [], _ => Nat.le_refl 0
  | p :: ps, h => by
      have hp := (h p List.mem_cons_self).2
      have hrest := bytesOf_le_packetSize fun p' hp' => h p' (List.mem_cons_of_mem _ hp')
      simp only [List.length_cons, bytesOf_cons, Nat.succ_mul]
      omega

/-- The counters are exact up to the last number of an `int`. -/
theorem sizesExact_iff (hsendable : ∀ p ∈ q.contents, p.Sendable) :
    q.SizesExact ↔ bytesOf q.contents < 2 ^ 31 := by
  constructor
  · intro h
    have hb := h.bytes
    rw [q.store.bytes_eq] at hb
    simp only [Arith.int, i32] at hb
    have hlt := Int.bmod_lt (x := (bytesOf q.store.internalQueue : Int)) (m := 2 ^ 32) (by decide)
    rw [show q.contents = q.store.internalQueue from rfl] at hb ⊢
    omega
  · intro h
    have hb : Arith.machine.Fits (bytesOf q.store.internalQueue) := h
    have hn : Arith.machine.Fits q.store.internalQueue.length :=
      hb.mono (length_le_bytesOf hsendable)
    exact ⟨q.store.bytes_eq.trans (Arith.int_of_fits hb),
      q.store.packets_eq.trans (Arith.int_of_fits hn),
      CountedQueue.sizeBytes_of_fits hb, CountedQueue.sizePackets_of_fits hn⟩

/-- As long as the counters are exact, the sums of the test do not leave
`unsigned int`. -/
theorem goodWithPacket_of_fits {q : DroppingPacketQueue .machine} (hq : q.Fits) (hp : p.Sendable) :
    q.goodWithPacket p = .ok
      (q.limits.goodWith (bytesOf q.internalQueue + p.size) (q.internalQueue.length + 1)) := by
  have hbytes : bytesOf q.internalQueue < 2 ^ 31 := hq.1
  have hpackets : q.internalQueue.length < 2 ^ 31 := hq.2
  have hsize : p.size ≤ 1504 := hp.2
  simp only [DroppingPacketQueue.goodWithPacket, DroppingPacketQueue.sizeBytes_of_fits hq,
    DroppingPacketQueue.sizePackets_of_fits hq, ok_bind, pure_eq_ok, Arith.unsigned]
  rw [u32_of_lt (by omega), u32_of_lt (by omega)]

/-- A packet that passes the test is there after the call, unless it is one too
many to be counted. -/
theorem enqueue_admitted {q : DropTailPacketQueue .machine} (hvalid : q.base.Valid)
    (hheld : ∀ p ∈ q.base.internalQueue, p.Sendable) (hp : p.Sendable)
    (hgood : q.base.goodWithPacket p = .ok true)
    (hholds : q.base.limits.Holds (q.base.internalQueue ++ [p])) :
    q.enqueue p = .ok ⟨q.base.accept p⟩ ∨
      (2 ^ 31 ≤ bytesOf (q.base.internalQueue ++ [p]) ∧ ∀ q', q.enqueue p ≠ .ok q') := by
  have hsendable : ∀ p' ∈ q.base.internalQueue ++ [p], p'.Sendable := by
    intro p' hp'
    rcases List.mem_append.mp hp' with hp' | hp'
    · exact hheld p' hp'
    · obtain rfl := List.mem_singleton.mp hp'
      exact hp
  by_cases hbytes : bytesOf (q.base.internalQueue ++ [p]) < 2 ^ 31
  · have hfits : (q.base.accept p).Fits :=
      ⟨hbytes, Nat.lt_of_le_of_lt (length_le_bytesOf hsendable) hbytes⟩
    left
    simp [DropTailPacketQueue.enqueue, hgood, DroppingPacketQueue.assertGood_of_valid ⟨hfits, hholds⟩]
  · refine .inr ⟨Nat.le_of_not_lt hbytes, fun q' hq' => ?_⟩
    -- a call that returns leaves a queue that it could count
    have hvalid' := DropTailPacketQueue.enqueue_valid hvalid
      (LinkQueue.fits_of_le_packetSize hp.2) hq'
    simp only [DropTailPacketQueue.enqueue, hgood, ok_bind, if_true, bind_eq_ok, pure_eq_ok,
      Except.ok.injEq] at hq'
    obtain ⟨-, -, rfl⟩ := hq'
    exact hbytes hvalid'.fits.1

/-- One packet, offered to a queue whose counters are exact: the test is exact,
and the call admits the packet or refuses it as the test says, unless the
packet is one too many to be counted. -/
theorem offer_cases (h : Holding t held q) (hheld : ∀ p ∈ held, p.Sendable)
    (hexact : bytesOf held < 2 ^ 31) (hp : p.Sendable) :
    q.TestExact p ∧ ∀ env,
      (∃ q', q.enqueue env p = .ok q' ∧ Holding t (t.offer held p) q') ∨
      (2 ^ 31 ≤ bytesOf (t.offer held p) ∧ ∀ q', q.enqueue env p ≠ .ok q') := by
  have hlength : held.length < 2 ^ 31 := Nat.lt_of_le_of_lt (length_le_bytesOf hheld) hexact
  cases h with
  | @infinite q ht hq =>
      subst ht
      refine ⟨trivial, fun env => .inl ⟨.infinite (q.enqueue p), rfl, .infinite rfl ?_⟩⟩
      show q.store.internalQueue ++ [p] = QueueType.infinite.offer held p
      rw [hq]
      rfl
  | @droptail q ht hq hholds =>
      subst ht hq
      have hfits : q.base.Fits := ⟨hexact, hlength⟩
      have hvalid : q.base.Valid := ⟨hfits, hholds⟩
      have htest := goodWithPacket_of_fits hfits hp
      refine ⟨htest, fun env => ?_⟩
      have henq : PacketQueue.enqueue env (.droptail q) p = .droptail <$> q.enqueue p := rfl
      rw [henq]
      cases hgood : (QueueType.droptail q.base.limits).passes q.base.internalQueue p with
      | false =>
          rw [QueueType.offer, hgood]
          have hgood' : q.base.goodWithPacket p = .ok false := htest.trans (congrArg _ hgood)
          refine .inl ⟨.droptail q, ?_, .droptail rfl rfl hholds⟩
          simp [DropTailPacketQueue.enqueue, hgood', DroppingPacketQueue.assertGood_of_valid hvalid]
      | true =>
          rw [QueueType.offer, hgood, if_pos rfl]
          have hgood' : q.base.goodWithPacket p = .ok true := htest.trans (congrArg _ hgood)
          have hholds' : q.base.limits.Holds (q.base.internalQueue ++ [p]) := by
            simpa [Limits.Holds, QueueType.passes] using hgood
          rcases enqueue_admitted hvalid hheld hp hgood' hholds' with hok | ⟨hbytes, hfails⟩
          · refine .inl ⟨.droptail ⟨q.base.accept p⟩, ?_, .droptail rfl rfl hholds'⟩
            rw [hok]
            rfl
          · refine .inr ⟨hbytes, fun q' hq' => ?_⟩
            obtain ⟨r, hr, -⟩ := map_eq_ok.mp hq'
            exact hfails r hr

/-- The counters keep up exactly as long as the bytes admitted do not leave `int`. -/
theorem countsExactly_iff : ∀ {packets held : List QueuedPacket} {q : PacketQueue .machine},
    Holding t held q → (∀ p ∈ held, p.Sendable) → (∀ p ∈ packets, p.Sendable) →
    (q.CountsExactly packets ↔ bytesOf (t.admitted held packets) < 2 ^ 31)
  | [], held, q, h, hheld, _ => by
      have hsizes := sizesExact_iff (q := q) (by rw [h.contents]; exact hheld)
      rw [h.contents] at hsizes
      exact hsizes
  | p :: packets, held, q, h, hheld, hpackets => by
      have hp := hpackets p List.mem_cons_self
      have hrest : ∀ p' ∈ packets, p'.Sendable := fun p' hp' =>
        hpackets p' (List.mem_cons_of_mem _ hp')
      have hoffered : ∀ p' ∈ t.offer held p, p'.Sendable := by
        intro p' hp'
        unfold QueueType.offer at hp'
        split at hp'
        · rcases List.mem_append.mp hp' with hp' | hp'
          · exact hheld p' hp'
          · obtain rfl := List.mem_singleton.mp hp'
            exact hp
        · exact hheld p' hp'
      have hsizes := sizesExact_iff (q := q) (by rw [h.contents]; exact hheld)
      rw [h.contents] at hsizes
      have hgrows := t.bytesOf_le_admitted (t.offer held p) packets
      have hgrows' := t.bytesOf_le_admitted held (p :: packets)
      show (q.SizesExact ∧ q.TestExact p ∧ _) ↔
        bytesOf (t.admitted (t.offer held p) packets) < 2 ^ 31
      constructor
      · rintro ⟨hexact, -, hcalls⟩
        obtain ⟨q', he, hcounts⟩ := hcalls ⟨0, 0, 0⟩
        obtain ⟨-, hoffer⟩ := offer_cases h hheld (hsizes.mp hexact) hp
        rcases hoffer ⟨0, 0, 0⟩ with ⟨q'', he', h'⟩ | ⟨-, hfails⟩
        · cases he.symm.trans he'
          exact (countsExactly_iff h' hoffered hrest).mp hcounts
        · exact absurd he (hfails q')
      · intro hlt
        have hexact : bytesOf held < 2 ^ 31 := Nat.lt_of_le_of_lt hgrows' hlt
        obtain ⟨htest, hoffer⟩ := offer_cases h hheld hexact hp
        refine ⟨hsizes.mpr hexact, htest, fun env => ?_⟩
        rcases hoffer env with ⟨q', he, h'⟩ | ⟨hge, -⟩
        · exact ⟨q', he, (countsExactly_iff h' hoffered hrest).mpr hlt⟩
        · omega

/-! ## Limits that keep the counters small -/

/-- `n` packets of the maximal size and one of `last` bytes. -/
def fullPackets (n last : Nat) : List QueuedPacket :=
  List.replicate n ⟨0, List.replicate packetSize 0⟩ ++ [⟨0, List.replicate last 0⟩]

theorem bytesOf_fullPackets (n last : Nat) :
    bytesOf (fullPackets n last) = n * packetSize + last := by
  have hsize : ∀ k, (⟨0, List.replicate k 0⟩ : QueuedPacket).size = k := fun k =>
    List.length_replicate
  simp only [fullPackets, bytesOf_append, bytesOf_cons, bytesOf_nil, hsize]
  rw [bytesOf, List.map_replicate, List.sum_replicate, hsize]
  rfl

theorem length_fullPackets (n last : Nat) : (fullPackets n last).length = n + 1 := by
  rw [fullPackets, List.length_append, List.length_replicate]
  rfl

theorem sendable_fullPackets (n : Nat) {last : Nat} (hpos : 0 < last) (hle : last ≤ packetSize) :
    ∀ p ∈ fullPackets n last, p.Sendable := by
  intro p hp
  rcases List.mem_append.mp hp with hp | hp
  · obtain rfl := List.eq_of_mem_replicate hp
    exact ⟨by rw [QueuedPacket.size, List.length_replicate]; decide,
      by rw [QueuedPacket.size, List.length_replicate]⟩
  · obtain rfl := List.mem_singleton.mp hp
    exact ⟨by rwa [QueuedPacket.size, List.length_replicate],
      by rwa [QueuedPacket.size, List.length_replicate]⟩

/-- What a drop-tail queue has admitted keeps its limits. -/
theorem holds_admitted {l : Limits} (h : l.Holds held) :
    l.Holds ((QueueType.droptail l).admitted held packets) := by
  refine List.foldlRecOn packets _ h fun held hheld p _ => ?_
  unfold QueueType.offer
  split
  · next hpasses => simpa [Limits.Holds, QueueType.passes] using hpasses
  · exact hheld

theorem sendable_admitted (t : QueueType) (hheld : ∀ p ∈ held, p.Sendable)
    (hpackets : ∀ p ∈ packets, p.Sendable) : ∀ p ∈ t.admitted held packets, p.Sendable := by
  refine List.foldlRecOn (motive := fun ps => ∀ p' ∈ ps, QueuedPacket.Sendable p') packets _ hheld
    fun held hheld p hp => ?_
  unfold QueueType.offer
  split
  · intro p' hp'
    rcases List.mem_append.mp hp' with hp' | hp'
    · exact hheld p' hp'
    · obtain rfl := List.mem_singleton.mp hp'
      exact hpackets _ hp
  · exact hheld

theorem admitted_infinite (packets : List QueuedPacket) :
    ∀ held, QueueType.infinite.admitted held packets = held ++ packets := by
  induction packets with
  | nil => exact fun held => (List.append_nil held).symm
  | cons p packets ih =>
      intro held
      show QueueType.infinite.admitted (held ++ [p]) packets = _
      rw [ih, List.append_assoc, List.singleton_append]

/-- Limits that are not small let `2^31` bytes in. -/
theorem bytesOf_admitted_of_not_small (ht : t.DecidesBySize) (hsmall : ¬ t.Small) :
    bytesOf (t.admitted [] (fullPackets 1427848 256)) = 2 ^ 31 := by
  have hadmitted : t.admitted [] (fullPackets 1427848 256) = fullPackets 1427848 256 := by
    cases t with
    | infinite => exact admitted_infinite ..
    | droptail l =>
        have hall : l.Holds ([] ++ fullPackets 1427848 256) → _ := QueueType.admitted_of_holds
        refine hall ?_
        simp only [QueueType.Small, packetSize] at hsmall
        simp only [List.nil_append, Limits.Holds, Limits.goodWith, bytesOf_fullPackets,
          length_fullPackets, packetSize, Bool.and_eq_true, Bool.or_eq_true, beq_iff_eq,
          decide_eq_true_eq]
        omega
    | drophead | codel | pie => exact ht.elim
  rw [hadmitted, bytesOf_fullPackets]
  rfl

theorem bytesOf_admitted_of_small (hsmall : t.Small) (hpackets : ∀ p ∈ packets, p.Sendable) :
    bytesOf (t.admitted [] packets) < 2 ^ 31 := by
  cases t with
  | droptail l =>
      have hholds : l.Holds ((QueueType.droptail l).admitted [] packets) :=
        holds_admitted (Limits.holds_nil l)
      have hsendable : ∀ p ∈ (QueueType.droptail l).admitted [] packets, p.Sendable :=
        sendable_admitted _ (by simp) hpackets
      have hbytes := bytesOf_le_packetSize hsendable
      simp only [Limits.Holds, Limits.goodWith, Bool.and_eq_true, Bool.or_eq_true, beq_iff_eq,
        decide_eq_true_eq] at hholds
      rcases hsmall with ⟨hpos, hlt⟩ | ⟨hpos, hlt⟩
      · omega
      · have hlength : ((QueueType.droptail l).admitted [] packets).length ≤ l.packetLimit := by omega
        have hmul := Nat.mul_le_mul_right packetSize hlength
        omega
  | infinite | drophead | codel | pie => exact hsmall.elim

/-- **When the counters of a queue do not overflow.** In an infinite queue, and
in a drop-tail queue with any limits that its constructor lets through: the
counters, the methods that read them and the limit tests are exact all along a
sequence of `enqueue` calls if and only if the packets that pass the test on
unbounded sums are less than `2^31` bytes. All sequences are counted exactly
if and only if the limits are small. -/
theorem counters_exact_iff (t : QueueType) (ht : t.DecidesBySize) (now : Nat) :
    (∀ packets : List QueuedPacket, (∀ p ∈ packets, p.Sendable) →
      ((getPacketQueue .machine now t).CountsExactly packets ↔
        bytesOf (t.admitted [] packets) < 2 ^ 31)) ∧
    ((∀ packets : List QueuedPacket, (∀ p ∈ packets, p.Sendable) →
      (getPacketQueue .machine now t).CountsExactly packets) ↔ t.Small) := by
  have hiff : ∀ packets : List QueuedPacket, (∀ p ∈ packets, p.Sendable) →
      ((getPacketQueue .machine now t).CountsExactly packets ↔
        bytesOf (t.admitted [] packets) < 2 ^ 31) := fun packets hpackets =>
    countsExactly_iff (holding_initial ht now) (by simp) hpackets
  refine ⟨hiff, fun h => ?_, fun hsmall packets hpackets =>
    (hiff packets hpackets).mpr (bytesOf_admitted_of_small hsmall hpackets)⟩
  by_contra hsmall
  have hsendable := sendable_fullPackets 1427848 (by decide : 0 < 256) (by decide)
  have hlt := (hiff _ hsendable).mp (h _ hsendable)
  rw [bytesOf_admitted_of_not_small ht hsmall] at hlt
  exact Nat.lt_irrefl _ hlt

/-- A limit of a hundred packets is small. -/
theorem counters_exact_iff_hundred :
    (getPacketQueue .machine 0 (.droptail ⟨100, 0⟩)).CountsExactly
      [⟨0, [1]⟩, ⟨0, [2, 3]⟩] :=
  (counters_exact_iff (.droptail ⟨100, 0⟩) ⟨by decide, by decide, by decide⟩ 0).2.mpr
    (.inr (by decide)) _ (by decide)

/-- Packets of two gigabytes in all, in an infinite queue and in a drop-tail
queue with the largest limit of bytes there is. -/
theorem two_gigabytes_overflow :
    (∀ p ∈ fullPackets 1427848 256, p.Sendable) ∧
      ¬ (getPacketQueue .machine 0 .infinite).CountsExactly (fullPackets 1427848 256) ∧
      (QueueType.droptail ⟨0, 2 ^ 32 - 1⟩).DecidesBySize ∧
      ¬ (getPacketQueue .machine 0 (.droptail ⟨0, 2 ^ 32 - 1⟩)).CountsExactly
        (fullPackets 1427848 256) := by
  have hsendable := sendable_fullPackets 1427848 (by decide : 0 < 256) (by decide)
  have hfull : (QueueType.droptail ⟨0, 2 ^ 32 - 1⟩).DecidesBySize :=
    ⟨by decide, by decide, by decide⟩
  refine ⟨hsendable, fun h => ?_, hfull, fun h => ?_⟩
  · have hlt := (countsExactly_iff (holding_initial (t := .infinite) trivial 0) (by simp)
      hsendable).mp h
    rw [bytesOf_admitted_of_not_small (t := .infinite) trivial (fun hs => hs)] at hlt
    exact Nat.lt_irrefl _ hlt
  · have hlt := (countsExactly_iff (holding_initial hfull 0) (by simp) hsendable).mp h
    rw [bytesOf_admitted_of_not_small hfull (by simp [QueueType.Small])] at hlt
    exact Nat.lt_irrefl _ hlt

end PacketQueue

end Mahimahi
