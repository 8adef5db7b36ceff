import Mahimahi.Loop
import Mahimahi.PacketQueue

/-!
# The drop-head queue

`DropHeadPacketQueue::enqueue` accepts the packet first and then drops from
the head until the limits are met. Each drop goes through
`DroppingPacketQueue::dequeue`, which ends with `assert( good() )` of its
own: a drop that is not yet the last one needed fails there. So `enqueue`
comes through exactly when at most one packet has to go
(`enqueue_of_holds`, `enqueue_of_tail`), and aborts otherwise
(`enqueue_aborts`).

What the queue is meant to leave is the longest suffix that keeps the
limits, which `Limits.longestSuffix` computes. `keepsPromise_iff` is the
account of whole runs: the promise is kept in a run exactly when at each of
its enqueues one drop is enough and the counters do not overflow.
-/

namespace Mahimahi

/-! ## The longest suffix with a property -/

/-- `r` is the longest suffix of `l` with the property `P`. -/
structure IsLongestSuffix {α : Type*} (P : List α → Prop) (l r : List α) : Prop where
  suffix : r <:+ l
  holds : P r
  longest : ∀ r', r' <:+ l → P r' → r'.length ≤ r.length

namespace IsLongestSuffix

variable {α : Type*} {P : List α → Prop} {l r r' : List α}

theorem refl (h : P l) : IsLongestSuffix P l l :=
  ⟨List.suffix_refl l, h, fun _ hs _ => hs.length_le⟩

theorem cons {a : α} (ha : ¬ P (a :: l)) (h : IsLongestSuffix P l r) :
    IsLongestSuffix P (a :: l) r := by
  refine ⟨h.suffix.trans (List.suffix_cons a l), h.holds, fun r' hs hP => ?_⟩
  rcases List.suffix_cons_iff.mp hs with rfl | hs
  · exact absurd hP ha
  · exact h.longest r' hs hP

theorem unique (h : IsLongestSuffix P l r) (h' : IsLongestSuffix P l r') : r = r' := by
  have hlen : r.length = r'.length :=
    Nat.le_antisymm (h'.longest r h.suffix h.holds) (h.longest r' h'.suffix h'.holds)
  exact (List.suffix_of_suffix_length_le h.suffix h'.suffix hlen.le).eq_of_length hlen

end IsLongestSuffix

namespace Limits

/-- Drop from the head as long as the limits are exceeded. -/
def longestSuffix (l : Limits) : List QueuedPacket → List QueuedPacket
  | [] => []
  | p :: ps => if l.Holds (p :: ps) then p :: ps else l.longestSuffix ps

theorem longestSuffix_spec (l : Limits) :
    ∀ ps, IsLongestSuffix l.Holds ps (l.longestSuffix ps)
  | [] => .refl l.holds_nil
  | p :: ps => by
      rw [longestSuffix]
      split
      · next h => exact .refl h
      · next h => exact (longestSuffix_spec l ps).cons h

theorem longestSuffix_of_holds {l : Limits} {ps : List QueuedPacket} (h : l.Holds ps) :
    l.longestSuffix ps = ps :=
  (l.longestSuffix_spec ps).unique (.refl h)

end Limits

/-! ## The queue -/

/-- `DropHeadPacketQueue`. -/
structure DropHeadPacketQueue (W : Arith) where
  base : DroppingPacketQueue W

namespace DropHeadPacketQueue

variable {W : Arith}

def initial (W : Arith) (l : Limits) : DropHeadPacketQueue W := ⟨.initial W l⟩

/-- `while ( not good() ) { dequeue(); }`, one turn. -/
def dropTurn (q : DroppingPacketQueue W) :
    Except Fault (DroppingPacketQueue W ⊕ DroppingPacketQueue W) := do
  if ← q.good then
    return .inr q
  else
    let (_, q') ← q.dequeue
    return .inl q'

/-- A turn takes a packet off the queue, so one turn a packet and one for the
empty queue are enough. -/
def enqueue (q : DropHeadPacketQueue W) (p : QueuedPacket) :
    Except Fault (DropHeadPacketQueue W) := do
  -- always accept the packet
  let base := q.base.accept p
  -- do we need to drop from the head?
  let base ← loop .diverges dropTurn (base.internalQueue.length + 1) base
  return ⟨base⟩

def dequeue (q : DropHeadPacketQueue W) : Except Fault (QueuedPacket × DropHeadPacketQueue W) := do
  let (p, base) ← q.base.dequeue
  return (p, ⟨base⟩)

instance : AbstractPacketQueue (DropHeadPacketQueue W) where
  enqueue _ q p := q.enqueue p
  dequeue _ q := q.dequeue
  empty q := q.base.empty
  sizeBytes q := q.base.sizeBytes
  sizePackets q := q.base.sizePackets

/-! ## What enqueue does -/

theorem dropTurn_of_holds {q : DroppingPacketQueue W} (hfits : q.Fits)
    (h : q.limits.Holds q.internalQueue) : dropTurn q = .ok (.inr q) := by
  have hg : q.good = .ok true := by rw [DroppingPacketQueue.good_of_fits hfits]; exact congrArg _ h
  simp [dropTurn, hg]

/-- A turn that has to drop: the assertion in `dequeue` decides it. -/
theorem dropTurn_of_not_holds {q : DroppingPacketQueue W} (hfits : q.Fits)
    (h : ¬ q.limits.Holds q.internalQueue) :
    ∃ q' : DroppingPacketQueue W, q'.internalQueue = q.internalQueue.tail ∧
      q'.limits = q.limits ∧ q'.Fits ∧
      dropTurn q = if q.limits.Holds q.internalQueue.tail then .ok (.inl q')
        else .error (.assertion "good()") := by
  have hg : q.good = .ok false := by
    rw [DroppingPacketQueue.good_of_fits hfits]
    exact congrArg _ (Bool.eq_false_iff.mpr h)
  cases hq : q.internalQueue with
  | nil => rw [hq] at h; exact absurd q.limits.holds_nil h
  | cons p ps =>
      obtain ⟨q', hps, hl, hfits', hd⟩ := DroppingPacketQueue.dequeue_cons hq hfits
      refine ⟨q', hps, hl, hfits', ?_⟩
      by_cases hps : q.limits.Holds ps <;> simp [dropTurn, hg, hd, hps]

variable {q : DropHeadPacketQueue W} {p : QueuedPacket}

theorem enqueue_of_holds (hfits : (q.base.accept p).Fits)
    (h : q.base.limits.Holds (q.base.internalQueue ++ [p])) :
    q.enqueue p = .ok ⟨q.base.accept p⟩ := by
  have hturn := dropTurn_of_holds (q := q.base.accept p) hfits h
  simp [enqueue, loop, hturn]

theorem enqueue_of_tail (hfits : (q.base.accept p).Fits)
    (h : ¬ q.base.limits.Holds (q.base.internalQueue ++ [p]))
    (ht : q.base.limits.Holds (q.base.internalQueue ++ [p]).tail) :
    ∃ base : DroppingPacketQueue W, q.enqueue p = .ok ⟨base⟩ ∧
      base.internalQueue = (q.base.internalQueue ++ [p]).tail ∧
      base.limits = q.base.limits ∧ base.Fits := by
  obtain ⟨q', hps, hl, hfits', hturn⟩ := dropTurn_of_not_holds (q := q.base.accept p) hfits h
  replace hturn := hturn.trans (if_pos ht)
  have hturn' : dropTurn q' = .ok (.inr q') :=
    dropTurn_of_holds hfits' (by rw [hl, hps]; exact ht)
  exact ⟨q', by simp [enqueue, loop, hturn, hturn'], hps, hl, hfits'⟩

theorem enqueue_aborts (hfits : (q.base.accept p).Fits)
    (h : ¬ q.base.limits.Holds (q.base.internalQueue ++ [p]))
    (ht : ¬ q.base.limits.Holds (q.base.internalQueue ++ [p]).tail) :
    q.enqueue p = .error (.assertion "good()") := by
  obtain ⟨q', -, -, -, hturn⟩ := dropTurn_of_not_holds (q := q.base.accept p) hfits h
  replace hturn := hturn.trans (if_neg ht)
  simp [enqueue, loop, hturn]

/-- A counter that the new packet pushes over the range of `int` is caught by
the first assertion that reads it. -/
theorem enqueue_overflow (hq : q.base.Fits) (hp : W.Fits p.size)
    (h : ¬ (q.base.accept p).Fits) : ∃ e, q.enqueue p = .error e := by
  cases hg : (q.base.accept p).good with
  | error e => exact ⟨e, by simp [enqueue, loop, dropTurn, hg]⟩
  | ok b => exact absurd (DroppingPacketQueue.accept_fits hq hp hg) h

theorem enqueue_valid {q' : DropHeadPacketQueue W} (hq : q.base.Valid) (hp : W.Fits p.size)
    (h : q.enqueue p = .ok q') : q'.base.Valid := by
  by_cases hfits : (q.base.accept p).Fits
  · by_cases hall : q.base.limits.Holds (q.base.internalQueue ++ [p])
    · rw [enqueue_of_holds hfits hall] at h
      cases h
      exact ⟨hfits, hall⟩
    · by_cases ht : q.base.limits.Holds (q.base.internalQueue ++ [p]).tail
      · obtain ⟨base, he, hps, hl, hfits'⟩ := enqueue_of_tail hfits hall ht
        rw [he] at h
        cases h
        exact ⟨hfits', by rw [hl, hps]; exact ht⟩
      · rw [enqueue_aborts hfits hall ht] at h
        cases h
  · obtain ⟨e, he⟩ := enqueue_overflow hq.fits hp hfits
    rw [he] at h
    cases h

/-! ## Whole runs -/

/-- What the queue promises over a run of calls: no assertion fails, and each
enqueue leaves the longest suffix that keeps the limits. The emulator does
not dequeue from an empty queue; from such a call on nothing is promised. -/
def KeepsPromise : List QueueCall → DropHeadPacketQueue W → Prop
  | [], _ => True
  | .enqueue _ p :: calls, q =>
      match q.enqueue p with
      | .error _ => False
      | .ok q' =>
          IsLongestSuffix q.base.limits.Holds (q.base.internalQueue ++ [p]) q'.base.internalQueue
            ∧ KeepsPromise calls q'
  | .dequeue _ :: calls, q =>
      q.base.internalQueue ≠ [] →
        match q.dequeue with
        | .error _ => False
        | .ok (_, q') => KeepsPromise calls q'

/-- The condition on a run, given the queue's contents: whenever a packet
arrives, the counters can count it and dropping the packet at the head, if
anything has to go, is enough. -/
def OneDropEnough (W : Arith) (l : Limits) : List QueueCall → List QueuedPacket → Prop
  | [], _ => True
  | .enqueue _ p :: calls, ps =>
      W.Fits (bytesOf (ps ++ [p])) ∧ W.Fits (ps ++ [p]).length
        ∧ (l.Holds (ps ++ [p]) ∨ l.Holds (ps ++ [p]).tail)
        ∧ OneDropEnough W l calls (l.longestSuffix (ps ++ [p]))
  | .dequeue _ :: calls, ps => ps ≠ [] → OneDropEnough W l calls ps.tail

instance OneDropEnough.decidable (W : Arith) (l : Limits) :
    ∀ calls ps, Decidable (OneDropEnough W l calls ps)
  | [], _ => inferInstanceAs (Decidable True)
  | .enqueue _ p :: calls, ps =>
      have := OneDropEnough.decidable W l calls (l.longestSuffix (ps ++ [p]))
      inferInstanceAs (Decidable (_ ∧ _ ∧ _ ∧ _))
  | .dequeue _ :: calls, ps =>
      have := OneDropEnough.decidable W l calls ps.tail
      inferInstanceAs (Decidable (_ → _))

/-- An enqueue under the condition leaves a valid queue with the longest
suffix in it. -/
theorem enqueue_step (hfits : (q.base.accept p).Fits)
    (h : q.base.limits.Holds (q.base.internalQueue ++ [p])
      ∨ q.base.limits.Holds (q.base.internalQueue ++ [p]).tail) :
    ∃ q' : DropHeadPacketQueue W, q.enqueue p = .ok q' ∧ q'.base.Valid ∧
      q'.base.limits = q.base.limits ∧
      q'.base.internalQueue = q.base.limits.longestSuffix (q.base.internalQueue ++ [p]) := by
  by_cases hall : q.base.limits.Holds (q.base.internalQueue ++ [p])
  · exact ⟨_, enqueue_of_holds hfits hall, ⟨hfits, hall⟩, rfl,
      (Limits.longestSuffix_of_holds hall).symm⟩
  · have ht := h.resolve_left hall
    obtain ⟨base, he, hps, hl, hfits'⟩ := enqueue_of_tail hfits hall ht
    refine ⟨⟨base⟩, he, ⟨hfits', by rw [hl, hps]; exact ht⟩, hl, ?_⟩
    rw [hps]
    cases hcons : q.base.internalQueue ++ [p] with
    | nil => simp at hcons
    | cons a as =>
        rw [hcons] at hall ht
        rw [Limits.longestSuffix, if_neg hall]
        exact (Limits.longestSuffix_of_holds ht).symm

theorem keepsPromise_iff_of_valid (calls : List QueueCall) :
    ∀ {q : DropHeadPacketQueue W}, q.base.Valid → (∀ p ∈ offered calls, W.Fits p.size) →
      (KeepsPromise calls q ↔ OneDropEnough W q.base.limits calls q.base.internalQueue) := by
  induction calls with
  | nil => intro q _ _; simp [KeepsPromise, OneDropEnough]
  | cons c calls ih =>
      intro q hq hsize
      cases c with
      | dequeue env =>
          simp only [KeepsPromise, OneDropEnough]
          refine forall_congr' fun hne => ?_
          obtain ⟨p, ps, hps⟩ := List.exists_cons_of_ne_nil hne
          obtain ⟨base, hd, hps', hl, hv⟩ := DroppingPacketQueue.dequeue_valid hps hq
          have hd' : q.dequeue = .ok (p, ⟨base⟩) := by simp [dequeue, hd]
          have hrest := ih (q := ⟨base⟩) hv hsize
          simp only [hl, hps'] at hrest
          simpa [hd', hps] using hrest
      | enqueue env p =>
          have hp : W.Fits p.size := hsize p (by simp [offered])
          have hsize' : ∀ p ∈ offered calls, W.Fits p.size :=
            fun p' hp' => hsize p' (by simp [offered, hp'])
          simp only [KeepsPromise, OneDropEnough]
          by_cases hfits : (q.base.accept p).Fits
          · by_cases h : q.base.limits.Holds (q.base.internalQueue ++ [p])
                ∨ q.base.limits.Holds (q.base.internalQueue ++ [p]).tail
            · obtain ⟨q', he, hv, hl, hps⟩ := enqueue_step hfits h
              have hrest := ih hv hsize'
              rw [hl, hps] at hrest
              have hlong := q.base.limits.longestSuffix_spec (q.base.internalQueue ++ [p])
              simp only [he, hps, hlong, true_and, hrest]
              exact ⟨fun hr => ⟨hfits.1, hfits.2, h, hr⟩, fun hr => hr.2.2.2⟩
            · have he := enqueue_aborts hfits (fun h' => h (.inl h')) (fun h' => h (.inr h'))
              simp only [he, false_iff]
              exact fun hc => h hc.2.2.1
          · obtain ⟨e, he⟩ := enqueue_overflow hq.fits hp hfits
            simp only [he, false_iff]
            exact fun hc => hfits ⟨hc.1, hc.2.1⟩

/-- **Drop-head over whole runs.** From a new queue, a run keeps the promise
exactly when at each of its enqueues one drop is enough and the counters can
count the packet. -/
theorem keepsPromise_iff (W : Arith) (l : Limits) (calls : List QueueCall)
    (hsize : ∀ p ∈ offered calls, W.Fits p.size) :
    KeepsPromise calls (initial W l) ↔ OneDropEnough W l calls [] :=
  keepsPromise_iff_of_valid calls (DroppingPacketQueue.initial_valid l) hsize

/-- Acknowledgements of 40 bytes under a limit of 100: the third drops the first, and
after a dequeue a packet of 80 bytes drops the one that is left. -/
theorem keepsPromise_iff_acks :
    KeepsPromise
      [.enqueue ⟨0, 0, 0⟩ ⟨0, List.replicate 40 0⟩,
        .enqueue ⟨1, 1, 0⟩ ⟨1, List.replicate 40 1⟩,
        .enqueue ⟨2, 2, 0⟩ ⟨2, List.replicate 40 2⟩,
        .dequeue ⟨3, 3, 0⟩,
        .enqueue ⟨4, 4, 0⟩ ⟨4, List.replicate 80 3⟩]
      (initial .machine ⟨0, 100⟩) :=
  (keepsPromise_iff .machine ⟨0, 100⟩ _ (by decide)).mpr (by decide)

/-- A limit of 100 bytes, two queued packets of 40 bytes and a new one of 80:
both have to go, and the assertion fails after the first. -/
theorem two_drops_abort :
    (⟨0, 100⟩ : Limits).Accepted ∧
      ¬ KeepsPromise
          [.enqueue ⟨0, 0, 0⟩ ⟨0, List.replicate 40 0⟩,
            .enqueue ⟨1, 1, 0⟩ ⟨1, List.replicate 40 0⟩,
            .enqueue ⟨2, 2, 0⟩ ⟨2, List.replicate 80 0⟩]
          (initial .machine ⟨0, 100⟩) :=
  ⟨⟨by decide, by decide, .inr (by decide)⟩, fun h => h.2.2⟩

end DropHeadPacketQueue

end Mahimahi
