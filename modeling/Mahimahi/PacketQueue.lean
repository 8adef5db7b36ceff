import Mathlib.Data.Rat.Defs
import Mathlib.Algebra.BigOperators.Group.List.Basic
import Mahimahi.Machine

/-!
# Packet queues

The interface the link emulator sees (`AbstractPacketQueue`), the part that
`InfinitePacketQueue` and `DroppingPacketQueue` have in common (a
`std::queue` with two `int` counters), and the disciplines that decide at
enqueue time without a clock: infinite and drop-tail.

The two counters carry the proof that they count what is queued, read as
`int`s: no operation can build a queue whose counters are off by anything
but the overflow. The disciplines that drop elsewhere are in `DropHead`,
`Codel` and `Pie`.
-/

namespace Mahimahi

/-! ## Packets -/

/-- A packet, stamped with the time at which it was read. -/
structure QueuedPacket where
  arrivalTime : Nat
  contents : Bytes
  deriving DecidableEq, Repr

namespace QueuedPacket

def size (p : QueuedPacket) : Nat := p.contents.length

end QueuedPacket

/-- Default max TUN payload size. -/
def packetSize : Nat := 1504

/-- The total size of a list of packets. -/
def bytesOf (ps : List QueuedPacket) : Nat := (ps.map QueuedPacket.size).sum

@[simp] theorem bytesOf_nil : bytesOf [] = 0 := rfl

@[simp] theorem bytesOf_cons (p : QueuedPacket) (ps : List QueuedPacket) :
    bytesOf (p :: ps) = p.size + bytesOf ps := by
  simp [bytesOf]

@[simp] theorem bytesOf_append (ps qs : List QueuedPacket) :
    bytesOf (ps ++ qs) = bytesOf ps + bytesOf qs := by
  simp [bytesOf]

/-! ## The interface -/

/-- What the outside world supplies to one call of a queue's method: the
readings of `timestamp()` in the order in which the method takes them, and
the number the random generator returns. -/
structure Env where
  now : Nat
  later : Nat
  draw : ℚ
  deriving DecidableEq

/-- `AbstractPacketQueue`. -/
class AbstractPacketQueue (Q : Type) where
  enqueue : Env → Q → QueuedPacket → Except Fault Q
  dequeue : Env → Q → Except Fault (QueuedPacket × Q)
  empty : Q → Bool
  sizeBytes : Q → Except Fault Nat
  sizePackets : Q → Except Fault Nat

/-- A call of one of the two methods that change a queue. -/
inductive QueueCall where
  | enqueue (env : Env) (p : QueuedPacket)
  | dequeue (env : Env)
  deriving DecidableEq

/-- A run of calls. -/
def runCalls {Q : Type} [AbstractPacketQueue Q] : List QueueCall → Q → Except Fault Q
  | [], q => .ok q
  | .enqueue env p :: calls, q => do
      let q' ← AbstractPacketQueue.enqueue env q p
      runCalls calls q'
  | .dequeue env :: calls, q => do
      let (_, q') ← AbstractPacketQueue.dequeue env q
      runCalls calls q'

/-- The packets a run of calls enqueues. -/
def offered : List QueueCall → List QueuedPacket
  | [] => []
  | .enqueue _ p :: calls => p :: offered calls
  | .dequeue _ :: calls => offered calls

/-! ## A queue and its two counters -/

/-- The members `internal_queue_`, `queue_size_in_bytes_` and
`queue_size_in_packets_`, with what relates them. -/
structure CountedQueue (W : Arith) where
  internalQueue : List QueuedPacket
  queueSizeInBytes : Int
  queueSizeInPackets : Int
  bytes_eq : queueSizeInBytes = W.int (bytesOf internalQueue)
  packets_eq : queueSizeInPackets = W.int internalQueue.length

namespace CountedQueue

variable {W : Arith}

theorem ext_iff' {q r : CountedQueue W} : q = r ↔ q.internalQueue = r.internalQueue := by
  constructor
  · rintro rfl; rfl
  · intro h
    obtain ⟨ps, b, n, hb, hn⟩ := q
    obtain ⟨ps', b', n', hb', hn'⟩ := r
    obtain rfl : ps = ps' := h
    obtain rfl : b = b' := hb.trans hb'.symm
    obtain rfl : n = n' := hn.trans hn'.symm
    rfl

def nil (W : Arith) : CountedQueue W where
  internalQueue := []
  queueSizeInBytes := 0
  queueSizeInPackets := 0
  bytes_eq := by simpa using W.int_zero.symm
  packets_eq := by simpa using W.int_zero.symm

/-- Put a packet on the back of the queue. -/
def push (q : CountedQueue W) (p : QueuedPacket) : CountedQueue W where
  internalQueue := q.internalQueue ++ [p]
  queueSizeInBytes := W.int (q.queueSizeInBytes + p.size)
  queueSizeInPackets := W.int (q.queueSizeInPackets + 1)
  bytes_eq := by simp [q.bytes_eq]
  packets_eq := by simp [q.packets_eq]

/-- Take the front of the queue: `none` when there is none. -/
def pop (q : CountedQueue W) : Option (QueuedPacket × CountedQueue W) :=
  match h : q.internalQueue with
  | [] => none
  | p :: ps => some (p,
      { internalQueue := ps
        queueSizeInBytes := W.int (q.queueSizeInBytes - p.size)
        queueSizeInPackets := W.int (q.queueSizeInPackets - 1)
        bytes_eq := by rw [q.bytes_eq, h]; simp
        packets_eq := by rw [q.packets_eq, h]; simp })

def empty (q : CountedQueue W) : Bool := q.internalQueue.isEmpty

def sizeBytes (q : CountedQueue W) : Except Fault Nat := do
  assertThat (decide (0 ≤ q.queueSizeInBytes)) "queue_size_in_bytes_ >= 0"
  return q.queueSizeInBytes.toNat

def sizePackets (q : CountedQueue W) : Except Fault Nat := do
  assertThat (decide (0 ≤ q.queueSizeInPackets)) "queue_size_in_packets_ >= 0"
  return q.queueSizeInPackets.toNat

@[simp] theorem nil_internalQueue : (nil W).internalQueue = [] := rfl

@[simp] theorem push_internalQueue (q : CountedQueue W) (p : QueuedPacket) :
    (q.push p).internalQueue = q.internalQueue ++ [p] := rfl

@[simp] theorem empty_eq_true {q : CountedQueue W} :
    q.empty = true ↔ q.internalQueue = [] := by
  simp [empty]

@[simp] theorem empty_eq_false {q : CountedQueue W} :
    q.empty = false ↔ q.internalQueue ≠ [] := by
  simp [empty]

theorem pop_eq_none {q : CountedQueue W} : q.pop = none ↔ q.internalQueue = [] := by
  unfold pop
  split <;> simp_all

theorem pop_eq_some {q r : CountedQueue W} {p : QueuedPacket} :
    q.pop = some (p, r) ↔ q.internalQueue = p :: r.internalQueue := by
  unfold pop
  split
  · next h => simp [h]
  · next p' ps h =>
      simp only [Option.some.injEq, Prod.mk.injEq, h, List.cons.injEq, ext_iff']

/-- Every counter of the queue has a value its type can hold. -/
def Fits (q : CountedQueue W) : Prop :=
  W.Fits (bytesOf q.internalQueue) ∧ W.Fits q.internalQueue.length

theorem sizeBytes_of_fits {q : CountedQueue W} (h : W.Fits (bytesOf q.internalQueue)) :
    q.sizeBytes = .ok (bytesOf q.internalQueue) := by
  have hb : q.queueSizeInBytes = bytesOf q.internalQueue := q.bytes_eq.trans (Arith.int_of_fits h)
  simp [sizeBytes, hb]

theorem sizePackets_of_fits {q : CountedQueue W} (h : W.Fits q.internalQueue.length) :
    q.sizePackets = .ok q.internalQueue.length := by
  have hb : q.queueSizeInPackets = q.internalQueue.length :=
    q.packets_eq.trans (Arith.int_of_fits h)
  simp [sizePackets, hb]

theorem sizeBytes_eq_ok {q : CountedQueue W} {n : Nat} (h : q.sizeBytes = .ok n) :
    0 ≤ W.int (bytesOf q.internalQueue) ∧ n = (W.int (bytesOf q.internalQueue)).toNat := by
  simp only [sizeBytes, bind_eq_ok, assertThat_eq_ok, pure_eq_ok, Except.ok.injEq,
    decide_eq_true_eq, q.bytes_eq] at h
  obtain ⟨-, hnn, rfl⟩ := h
  exact ⟨hnn, rfl⟩

theorem sizePackets_eq_ok {q : CountedQueue W} {n : Nat} (h : q.sizePackets = .ok n) :
    0 ≤ W.int q.internalQueue.length ∧ n = (W.int q.internalQueue.length).toNat := by
  simp only [sizePackets, bind_eq_ok, assertThat_eq_ok, pure_eq_ok, Except.ok.injEq,
    decide_eq_true_eq, q.packets_eq] at h
  obtain ⟨-, hnn, rfl⟩ := h
  exact ⟨hnn, rfl⟩

/-- Two counters that can still be read after a push have not overflowed. -/
theorem push_fits {q : CountedQueue W} {p : QueuedPacket} {bytes packets : Nat} (hq : q.Fits)
    (hp : W.Fits p.size) (hbytes : (q.push p).sizeBytes = .ok bytes)
    (hpackets : (q.push p).sizePackets = .ok packets) : (q.push p).Fits := by
  have hb := (sizeBytes_eq_ok hbytes).1
  have hn := (sizePackets_eq_ok hpackets).1
  have h1 : W.Fits 1 := by cases W <;> simp [Arith.Fits]
  constructor
  · have := (Arith.int_nonneg_iff hq.1 hp).mp (by simpa using hb)
    simpa using this
  · have := (Arith.int_nonneg_iff hq.2 h1).mp (by simpa using hn)
    simpa using this

theorem Fits.of_nil {q : CountedQueue W} (h : q.internalQueue = []) : q.Fits := by
  constructor <;> simpa [h] using W.fits_zero

theorem Fits.of_cons {q r : CountedQueue W} {p : QueuedPacket}
    (h : q.internalQueue = p :: r.internalQueue) (hq : q.Fits) : r.Fits := by
  unfold Fits at hq
  simp only [h, bytesOf_cons, List.length_cons] at hq
  exact ⟨hq.1.mono (by omega), hq.2.mono (by omega)⟩

end CountedQueue

/-! ## InfinitePacketQueue -/

/-- `InfinitePacketQueue`. -/
structure InfinitePacketQueue (W : Arith) where
  store : CountedQueue W

namespace InfinitePacketQueue

variable {W : Arith}

def initial (W : Arith) : InfinitePacketQueue W := ⟨.nil W⟩

def enqueue (q : InfinitePacketQueue W) (p : QueuedPacket) : InfinitePacketQueue W :=
  ⟨q.store.push p⟩

def dequeue (q : InfinitePacketQueue W) : Except Fault (QueuedPacket × InfinitePacketQueue W) :=
  match q.store.pop with
  | none => .error (.assertion "not internal_queue_.empty()")
  | some (p, store) => .ok (p, ⟨store⟩)

instance : AbstractPacketQueue (InfinitePacketQueue W) where
  enqueue _ q p := .ok (q.enqueue p)
  dequeue _ q := q.dequeue
  empty q := q.store.empty
  sizeBytes q := q.store.sizeBytes
  sizePackets q := q.store.sizePackets

theorem dequeue_eq_ok {q q' : InfinitePacketQueue W} {p : QueuedPacket} :
    q.dequeue = .ok (p, q') ↔ q.store.internalQueue = p :: q'.store.internalQueue := by
  rw [dequeue]
  cases hpop : q.store.pop with
  | none => simp [CountedQueue.pop_eq_none.mp hpop]
  | some r =>
      obtain ⟨p', store⟩ := r
      have hcons := CountedQueue.pop_eq_some.mp hpop
      simp only [Except.ok.injEq, Prod.mk.injEq, hcons, List.cons.injEq]
      refine and_congr_right fun _ => ⟨fun h => by rw [← h], fun h => ?_⟩
      obtain ⟨store'⟩ := q'
      exact congrArg _ (CountedQueue.ext_iff'.mpr h)

end InfinitePacketQueue

/-! ## DroppingPacketQueue -/

/-- The members `packet_limit_` and `byte_limit_`; a limit of 0 is no limit. -/
structure Limits where
  packetLimit : Nat
  byteLimit : Nat
  deriving DecidableEq, Repr

namespace Limits

/-- The values the constructor lets through: both are `unsigned int`s, and
not both are 0. -/
structure Accepted (l : Limits) : Prop where
  packet_lt : l.packetLimit < 2 ^ 32
  byte_lt : l.byteLimit < 2 ^ 32
  some_limit : l.packetLimit ≠ 0 ∨ l.byteLimit ≠ 0

/-- `good_with`. -/
def goodWith (l : Limits) (sizeInBytes sizeInPackets : Nat) : Bool :=
  (l.byteLimit == 0 || sizeInBytes ≤ l.byteLimit)
    && (l.packetLimit == 0 || sizeInPackets ≤ l.packetLimit)

/-- The packets `ps` together keep both limits. -/
def Holds (l : Limits) (ps : List QueuedPacket) : Prop :=
  l.goodWith (bytesOf ps) ps.length = true

instance (l : Limits) (ps : List QueuedPacket) : Decidable (l.Holds ps) :=
  inferInstanceAs (Decidable (_ = true))

theorem goodWith_mono {l : Limits} {b b' n n' : Nat} (hb : b' ≤ b) (hn : n' ≤ n)
    (h : l.goodWith b n = true) : l.goodWith b' n' = true := by
  simp only [goodWith, Bool.and_eq_true, Bool.or_eq_true, beq_iff_eq, decide_eq_true_eq] at *
  omega

@[simp] theorem holds_nil (l : Limits) : l.Holds [] := by
  simp [Holds, goodWith]

theorem Holds.of_cons {l : Limits} {p : QueuedPacket} {ps : List QueuedPacket}
    (h : l.Holds (p :: ps)) : l.Holds ps :=
  goodWith_mono (by simp) (by simp) h

end Limits

/-- `DroppingPacketQueue`. -/
structure DroppingPacketQueue (W : Arith) where
  store : CountedQueue W
  limits : Limits

namespace DroppingPacketQueue

variable {W : Arith}

def initial (W : Arith) (l : Limits) : DroppingPacketQueue W := ⟨.nil W, l⟩

def internalQueue (q : DroppingPacketQueue W) : List QueuedPacket := q.store.internalQueue

def empty (q : DroppingPacketQueue W) : Bool := q.store.empty

def sizeBytes (q : DroppingPacketQueue W) : Except Fault Nat := q.store.sizeBytes

def sizePackets (q : DroppingPacketQueue W) : Except Fault Nat := q.store.sizePackets

/-- `good`. -/
def good (q : DroppingPacketQueue W) : Except Fault Bool := do
  let sizeInBytes ← q.sizeBytes
  let sizeInPackets ← q.sizePackets
  return q.limits.goodWith sizeInBytes sizeInPackets

/-- `assert( good() )`. -/
def assertGood (q : DroppingPacketQueue W) : Except Fault Unit := do
  assertThat (← q.good) "good()"

/-- `good_with( size_bytes() + p.contents.size(), size_packets() + 1 )`, the
test every discipline makes before it accepts `p`. -/
def goodWithPacket (q : DroppingPacketQueue W) (p : QueuedPacket) : Except Fault Bool := do
  let sizeInBytes ← q.sizeBytes
  let sizeInPackets ← q.sizePackets
  return q.limits.goodWith (W.unsigned (sizeInBytes + p.size)) (W.unsigned (sizeInPackets + 1))

def accept (q : DroppingPacketQueue W) (p : QueuedPacket) : DroppingPacketQueue W :=
  { q with store := q.store.push p }

def dequeue (q : DroppingPacketQueue W) : Except Fault (QueuedPacket × DroppingPacketQueue W) :=
  match q.store.pop with
  | none => .error (.assertion "not internal_queue_.empty()")
  | some (ret, store) => do
      let q' := { q with store := store }
      q'.assertGood
      return (ret, q')

@[simp] theorem initial_internalQueue (l : Limits) : (initial W l).internalQueue = [] := rfl

@[simp] theorem initial_limits (l : Limits) : (initial W l).limits = l := rfl

@[simp] theorem accept_internalQueue (q : DroppingPacketQueue W) (p : QueuedPacket) :
    (q.accept p).internalQueue = q.internalQueue ++ [p] := rfl

@[simp] theorem accept_limits (q : DroppingPacketQueue W) (p : QueuedPacket) :
    (q.accept p).limits = q.limits := rfl

@[simp] theorem empty_eq_true {q : DroppingPacketQueue W} :
    q.empty = true ↔ q.internalQueue = [] :=
  CountedQueue.empty_eq_true

@[simp] theorem empty_eq_false {q : DroppingPacketQueue W} :
    q.empty = false ↔ q.internalQueue ≠ [] :=
  CountedQueue.empty_eq_false

/-! What the queue's own invariant says: the counters are exact and the
limits are kept. Every operation is described on such queues. -/

/-- The counters hold their exact values. -/
def Fits (q : DroppingPacketQueue W) : Prop := q.store.Fits

/-- The counters hold their exact values, and both limits are kept. -/
structure Valid (q : DroppingPacketQueue W) : Prop where
  fits : q.Fits
  holds : q.limits.Holds q.internalQueue

theorem sizeBytes_of_fits {q : DroppingPacketQueue W} (h : q.Fits) :
    q.sizeBytes = .ok (bytesOf q.internalQueue) :=
  CountedQueue.sizeBytes_of_fits h.1

theorem sizePackets_of_fits {q : DroppingPacketQueue W} (h : q.Fits) :
    q.sizePackets = .ok q.internalQueue.length :=
  CountedQueue.sizePackets_of_fits h.2

theorem good_of_fits {q : DroppingPacketQueue W} (h : q.Fits) :
    q.good = .ok (q.limits.goodWith (bytesOf q.internalQueue) q.internalQueue.length) := by
  simp [good, sizeBytes_of_fits h, sizePackets_of_fits h]

theorem assertGood_of_fits {q : DroppingPacketQueue W} (h : q.Fits) :
    q.assertGood = if q.limits.Holds q.internalQueue then .ok () else .error (.assertion "good()") := by
  rw [assertGood, good_of_fits h, ok_bind, assertThat]
  by_cases hg : q.limits.Holds q.internalQueue
  · rw [if_pos hg]; exact if_pos hg
  · rw [if_neg hg]; exact if_neg hg

theorem initial_valid (l : Limits) : (initial W l).Valid :=
  ⟨.of_nil rfl, l.holds_nil⟩

/-- A counter that survives `good()` has not overflowed. -/
theorem accept_fits {q : DroppingPacketQueue W} {p : QueuedPacket} {b : Bool} (hq : q.Fits)
    (hp : W.Fits p.size) (hg : (q.accept p).good = .ok b) : (q.accept p).Fits := by
  simp only [good, bind_eq_ok] at hg
  obtain ⟨nb, hb, np, hn, -⟩ := hg
  exact CountedQueue.push_fits hq hp hb hn

/-- `assert( good() )` after `accept` makes the queue valid. -/
theorem accept_valid {q : DroppingPacketQueue W} {p : QueuedPacket} (hq : q.Fits)
    (hp : W.Fits p.size) (h : (q.accept p).assertGood = .ok ()) : (q.accept p).Valid := by
  simp only [assertGood, bind_eq_ok, assertThat_eq_ok] at h
  obtain ⟨b, hg, rfl⟩ := h
  have hfits := accept_fits hq hp hg
  rw [good_of_fits hfits] at hg
  exact ⟨hfits, Except.ok.inj hg⟩

theorem accept_if_valid {q : DroppingPacketQueue W} {p : QueuedPacket} {b : Bool} (hq : q.Valid)
    (hp : W.Fits p.size) (h : (if b then q.accept p else q).assertGood = .ok ()) :
    (if b then q.accept p else q).Valid := by
  cases b
  · exact hq
  · exact accept_valid hq.fits hp h

theorem assertGood_of_valid {q : DroppingPacketQueue W} (hq : q.Valid) : q.assertGood = .ok () := by
  rw [assertGood_of_fits hq.fits, if_pos hq.holds]

/-- A packet that the counters can count is accepted exactly when it keeps
the limits, and the queue is valid after that decision. -/
theorem offer_valid {q : DroppingPacketQueue W} {p : QueuedPacket} (hq : q.Valid)
    (hfits : (q.accept p).Fits) :
    ∃ b, q.goodWithPacket p = .ok b ∧ (b = true → (q.accept p).Valid) := by
  have hbytes : bytesOf (q.internalQueue ++ [p]) = bytesOf q.internalQueue + p.size := by simp
  have hpackets : (q.internalQueue ++ [p]).length = q.internalQueue.length + 1 := by simp
  have hfits' : W.Fits (bytesOf q.internalQueue + p.size) ∧ W.Fits (q.internalQueue.length + 1) :=
    ⟨hbytes ▸ hfits.1, hpackets ▸ hfits.2⟩
  refine ⟨q.limits.goodWith (bytesOf (q.internalQueue ++ [p])) (q.internalQueue ++ [p]).length,
    ?_, fun hgood => ⟨hfits, hgood⟩⟩
  rw [hbytes, hpackets]
  simp [goodWithPacket, sizeBytes_of_fits hq.fits, sizePackets_of_fits hq.fits,
    Arith.unsigned_of_fits hfits'.1, Arith.unsigned_of_fits hfits'.2]

/-- `dequeue` on a queue that has a front and exact counters: what comes out,
what is left, and when the assertion at its end fails. -/
theorem dequeue_cons {q : DroppingPacketQueue W} {p : QueuedPacket} {ps : List QueuedPacket}
    (h : q.internalQueue = p :: ps) (hfits : q.Fits) :
    ∃ q' : DroppingPacketQueue W, q'.internalQueue = ps ∧ q'.limits = q.limits ∧ q'.Fits ∧
      q.dequeue = if q.limits.Holds ps then .ok (p, q') else .error (.assertion "good()") := by
  cases hpop : q.store.pop with
  | none => rw [CountedQueue.pop_eq_none] at hpop; simp [internalQueue, hpop] at h
  | some r =>
      obtain ⟨p', store⟩ := r
      have hcons := CountedQueue.pop_eq_some.mp hpop
      obtain ⟨rfl, rfl⟩ : p' = p ∧ store.internalQueue = ps := by
        simpa [internalQueue, hcons] using h
      have hfits' : store.Fits := .of_cons hcons hfits
      refine ⟨{ q with store := store }, rfl, rfl, hfits', ?_⟩
      have hgood := assertGood_of_fits (q := { q with store := store }) hfits'
      simp only [dequeue, hpop, hgood]
      split <;> simp_all [internalQueue]

/-- On a queue that keeps its limits `dequeue` returns the front. -/
theorem dequeue_valid {q : DroppingPacketQueue W} {p : QueuedPacket} {ps : List QueuedPacket}
    (h : q.internalQueue = p :: ps) (hq : q.Valid) :
    ∃ q' : DroppingPacketQueue W, q.dequeue = .ok (p, q') ∧ q'.internalQueue = ps ∧
      q'.limits = q.limits ∧ q'.Valid := by
  obtain ⟨q', hps, hl, hfits, hd⟩ := dequeue_cons h hq.fits
  have hholds : q.limits.Holds ps := (h ▸ hq.holds).of_cons
  rw [if_pos hholds] at hd
  exact ⟨q', hd, hps, hl, hfits, by rw [hl, hps]; exact hholds⟩

/-- A result of `dequeue` is the front, whatever the counters say. -/
theorem dequeue_eq_ok {q q' : DroppingPacketQueue W} {p : QueuedPacket}
    (h : q.dequeue = .ok (p, q')) :
    q.internalQueue = p :: q'.internalQueue ∧ q'.limits = q.limits := by
  unfold dequeue at h
  split at h
  · cases h
  · next ret store hpop =>
      simp only [bind_eq_ok, pure_eq_ok, Except.ok.injEq, Prod.mk.injEq] at h
      obtain ⟨-, -, rfl, rfl⟩ := h
      exact ⟨CountedQueue.pop_eq_some.mp hpop, rfl⟩

theorem dequeue_step {q q' : DroppingPacketQueue W} {p : QueuedPacket} (hq : q.Valid)
    (h : q.dequeue = .ok (p, q')) : q.internalQueue = p :: q'.internalQueue ∧ q'.Valid := by
  obtain ⟨hps, hl⟩ := dequeue_eq_ok h
  refine ⟨hps, CountedQueue.Fits.of_cons hps hq.fits, ?_⟩
  rw [hl]
  exact (hps ▸ hq.holds).of_cons

end DroppingPacketQueue

/-! ## DropTailPacketQueue -/

/-- `DropTailPacketQueue`. -/
structure DropTailPacketQueue (W : Arith) where
  base : DroppingPacketQueue W

namespace DropTailPacketQueue

variable {W : Arith}

def initial (W : Arith) (l : Limits) : DropTailPacketQueue W := ⟨.initial W l⟩

def enqueue (q : DropTailPacketQueue W) (p : QueuedPacket) :
    Except Fault (DropTailPacketQueue W) := do
  let base := if ← q.base.goodWithPacket p then q.base.accept p else q.base
  base.assertGood
  return ⟨base⟩

def dequeue (q : DropTailPacketQueue W) : Except Fault (QueuedPacket × DropTailPacketQueue W) := do
  let (p, base) ← q.base.dequeue
  return (p, ⟨base⟩)

instance : AbstractPacketQueue (DropTailPacketQueue W) where
  enqueue _ q p := q.enqueue p
  dequeue _ q := q.dequeue
  empty q := q.base.empty
  sizeBytes q := q.base.sizeBytes
  sizePackets q := q.base.sizePackets

theorem enqueue_valid {q q' : DropTailPacketQueue W} {p : QueuedPacket} (hq : q.base.Valid)
    (hp : W.Fits p.size) (h : q.enqueue p = .ok q') : q'.base.Valid := by
  simp only [enqueue, bind_eq_ok, pure_eq_ok, Except.ok.injEq] at h
  obtain ⟨b, -, u, hg, rfl⟩ := h
  exact DroppingPacketQueue.accept_if_valid hq hp hg

end DropTailPacketQueue

end Mahimahi
