import Mathlib.Data.List.Forall2
import Mahimahi.DelaySwitch

/-!
# When the delay queues let packets out

One loop serves both queues: as long as the packet on top is due at a fresh
reading of the clock, it is written. `Drained` says what such a loop leaves
behind, and rests on one thing only, that the packet on top is one of those
with the least release time. The priority queue of `AdvDelayQueue` promises
it; the FIFO of `DelayQueue` has it because its packets are in the order of
their release times, being all delayed alike and read at clock readings that
do not go back.

A run is followed with its history: what has been read and what has been
written, each with the clock reading. The reading of a packet written is that
of the test that let it out, so the write itself is no earlier.
-/

namespace Mahimahi

/-! ## A run with its history -/

/-- A packet read, with the clock reading and the delay chosen for it. -/
structure ReadPacket where
  time : Nat
  delay : Nat
  contents : Bytes

/-- The packet as it is queued. -/
def ReadPacket.pair (r : ReadPacket) : DelayPktPair := (r.time + r.delay, r.contents)

/-- A delay queue, with the packets that it has read and those that it has
written, each with the clock reading. -/
structure DelayRun (Q : Type) where
  queue : Q
  read : List ReadPacket
  written : List (Nat × Bytes)

namespace DelayRun

def start {Q : Type} (queue : Q) : DelayRun Q := ⟨queue, [], []⟩

end DelayRun

/-- Each test of the loop that succeeds lets one packet out. -/
def departures (clock : Nat → Nat) : Nat → List Bytes → List (Nat × Bytes)
  | _, [] => []
  | k, contents :: written => (clock k, contents) :: departures clock (k + 1) written

/-- The last reading of a loop that has written `written` and left `left`: it
found the next packet not due, or the packet before was the last one. -/
def lastReading (clock : Nat → Nat) (written : List Bytes) (left : List DelayPktPair) :
    Option Nat :=
  if left ≠ [] then some (clock written.length)
  else if written ≠ [] then some (clock (written.length - 1))
  else none

@[simp] theorem length_departures (clock : Nat → Nat) : ∀ (k : Nat) (written : List Bytes),
    (departures clock k written).length = written.length
  | _, [] => rfl
  | k, _ :: written => congrArg (· + 1) (length_departures clock (k + 1) written)

/-! ## What one loop does -/

/-- The packet `x` leaves as `w`: with its contents, and not before its time. -/
def LeavesAs (w : Nat × Bytes) (x : DelayPktPair) : Prop := w.2 = x.2 ∧ x.1 ≤ w.1

/-- A loop that began at the `k`-th reading lets `out` out, in the order of
the release times and none of it early, and leaves what was not due at its
last reading. -/
structure Drained (clock : Nat → Nat) (k : Nat) (written : List Bytes)
    (out left : List DelayPktPair) : Prop where
  leaves : List.Forall₂ LeavesAs (departures clock k written) out
  sorted : out.Pairwise fun x y => x.1 ≤ y.1
  waiting : ∀ x ∈ left, clock (k + written.length) < x.1

namespace Drained

variable {clock : Nat → Nat} {k : Nat} {written : List Bytes} {out left : List DelayPktPair}

theorem stop (h : ∀ x ∈ left, clock k < x.1) : Drained clock k [] [] left where
  leaves := .nil
  sorted := .nil
  waiting := h

theorem cons {top : DelayPktPair} (hdue : top.1 ≤ clock k) (hleast : ∀ x ∈ out, top.1 ≤ x.1)
    (h : Drained clock (k + 1) written out left) :
    Drained clock k (top.2 :: written) (top :: out) left where
  leaves := .cons ⟨rfl, hdue⟩ h.leaves
  sorted := List.pairwise_cons.mpr ⟨hleast, h.sorted⟩
  waiting x hx := by
    have hlt := h.waiting x hx
    rwa [Nat.add_assoc, Nat.add_comm 1] at hlt

theorem lastReading_lt (h : Drained clock 0 written out left) :
    ∀ t ∈ lastReading clock written left, ∀ x ∈ left, t < x.1 := by
  intro t ht x hx
  rw [lastReading, if_pos (List.ne_nil_of_mem hx)] at ht
  obtain rfl := Option.some.inj ht
  simpa using h.waiting x hx

end Drained

theorem written_of_leaves {clock : Nat → Nat} : ∀ {k : Nat} {written : List Bytes}
    {out : List DelayPktPair}, List.Forall₂ LeavesAs (departures clock k written) out →
    written = out.map Prod.snd
  | _, [], [], .nil => rfl
  | _, _ :: _, _ :: _, .cons h hrest => by
      rw [List.map_cons, ← written_of_leaves hrest, ← h.1]

/-- The history of a queue that holds `queued`: `gone` has been written, and
`held` is still there. -/
structure Parted (written : List (Nat × Bytes)) (gone held : List ReadPacket)
    (queued : List DelayPktPair) : Prop where
  leaves : List.Forall₂ (fun w r => LeavesAs w r.pair) written gone
  queued_eq : queued = held.map ReadPacket.pair

namespace Parted

variable {written : List (Nat × Bytes)} {gone held : List ReadPacket} {queued : List DelayPktPair}

theorem read (h : Parted written gone held queued) (r : ReadPacket) :
    Parted written gone (held ++ [r]) (queued ++ [r.pair]) where
  leaves := h.leaves
  queued_eq := by rw [h.queued_eq, List.map_append, List.map_singleton]

/-- A loop moves packets from the one part to the other. -/
theorem drain {out left : List DelayPktPair} {clock : Nat → Nat} {sent : List Bytes}
    (h : Parted written gone held (out ++ left))
    (hleaves : List.Forall₂ LeavesAs (departures clock 0 sent) out) :
    ∃ going staying, held = going ++ staying ∧
      Parted (written ++ departures clock 0 sent) (gone ++ going) staying left := by
  obtain ⟨going, staying, rfl, hgoing, hstaying⟩ := List.append_eq_map_iff.mp h.queued_eq
  refine ⟨going, staying, rfl, List.rel_append h.leaves ?_, hstaying.symm⟩
  rw [← hgoing, List.forall₂_map_right_iff] at hleaves
  exact hleaves

theorem of_perm {queued' : List DelayPktPair} (h : Parted written gone held queued)
    (hperm : queued'.Perm queued) : ∃ held', held'.Perm held ∧ Parted written gone held' queued' := by
  have hmap : queued'.Perm (held.map ReadPacket.pair) := h.queued_eq ▸ hperm
  have hcomp : Relation.Comp (· = List.map ReadPacket.pair ·) List.Perm queued' held := by
    rw [List.eq_map_comp_perm]
    exact hmap
  obtain ⟨held', heq, hheld⟩ := hcomp
  exact ⟨held', hheld, h.leaves, heq⟩

theorem written_eq (h : Parted written gone held queued) :
    written.map Prod.snd = gone.map ReadPacket.contents := by
  have hsnd := h.leaves.imp fun w (r : ReadPacket) (hwr : LeavesAs w r.pair) => hwr.1
  rw [← List.forall₂_eq_eq_eq, List.forall₂_map_left_iff, List.forall₂_map_right_iff]
  exact hsnd

end Parted

/-! ## DelayQueue -/

namespace DelayQueue

/-- What the loop has written when it ends, with an exception or without, and
what it has left. -/
def drain (clock : Nat → Nat) : Nat → List DelayPktPair → List Bytes × List DelayPktPair
  | _, [] => ([], [])
  | k, front :: rest =>
      if front.1 ≤ clock k then
        match write front.2 with
        | .ok contents =>
            let (written, left) := drain clock (k + 1) rest
            (contents :: written, left)
        | .error _ => ([], front :: rest)
      else ([], front :: rest)

theorem drain_of_ok {clock : Nat → Nat} : ∀ {k : Nat} {q left : List DelayPktPair}
    {written : List Bytes}, writeLoop clock k q = .ok (written, left) →
    drain clock k q = (written, left)
  | _, [], _, _, h => by cases h; rfl
  | k, front :: rest, left, written, h => by
      rw [writeLoop] at h
      rw [drain]
      split at h
      · next hdue =>
          rw [if_pos hdue]
          obtain ⟨contents, hw, h⟩ := bind_eq_ok.mp h
          obtain ⟨⟨written', left'⟩, hloop, h⟩ := bind_eq_ok.mp h
          cases h
          simp only [hw, drain_of_ok hloop]
      · next hdue =>
          rw [if_neg hdue]
          cases h
          rfl

theorem drain_of_error {clock : Nat → Nat} : ∀ {k : Nat} {q : List DelayPktPair} {f : Fault},
    writeLoop clock k q = .error f → ∃ front ∈ q, front.2 = []
  | _, [], _, h => by cases h
  | k, front :: rest, f, h => by
      rw [writeLoop] at h
      split at h
      · cases hfront : front.2 with
        | nil => exact ⟨front, List.mem_cons_self, hfront⟩
        | cons b bs =>
            rw [write_eq_ok (by simp [hfront]), ok_bind] at h
            cases hloop : writeLoop clock (k + 1) rest with
            | ok r => simp [hloop] at h
            | error f' =>
                obtain ⟨x, hx, hnil⟩ := drain_of_error hloop
                exact ⟨x, List.mem_cons_of_mem _ hx, hnil⟩
      · cases h

/-- The loop takes packets off the front, none of them early. -/
theorem drain_append {clock : Nat → Nat} : ∀ {k : Nat} {q left : List DelayPktPair}
    {written : List Bytes}, drain clock k q = (written, left) →
    ∃ out, q = out ++ left ∧ List.Forall₂ LeavesAs (departures clock k written) out
  | _, [], _, _, h => by
      cases h
      exact ⟨[], rfl, .nil⟩
  | k, front :: rest, left, written, h => by
      rw [drain] at h
      split at h
      · next hdue =>
          cases hw : write front.2 with
          | error f =>
              simp only [hw] at h
              cases h
              exact ⟨[], rfl, .nil⟩
          | ok contents =>
              simp only [hw] at h
              cases h
              obtain ⟨out, hrest, hleaves⟩ := drain_append (k := k + 1) (q := rest) rfl
              have hcontents : contents = front.2 := by
                unfold write at hw
                split at hw
                · cases hw
                · exact (Except.ok.inj hw).symm
              exact ⟨front :: out, congrArg _ hrest, .cons ⟨hcontents, hdue⟩ hleaves⟩
      · cases h
        exact ⟨[], rfl, .nil⟩

/-- A loop that returns stops at a packet that is not due, and the packets
behind it are due later still. -/
theorem waiting_of_ok {clock : Nat → Nat} : ∀ {k : Nat} {q left : List DelayPktPair}
    {written : List Bytes}, writeLoop clock k q = .ok (written, left) →
    (q.Pairwise fun x y => x.1 ≤ y.1) → ∀ x ∈ left, clock (k + written.length) < x.1
  | _, [], _, _, h, _ => by
      cases h
      intro x hx
      cases hx
  | k, front :: rest, left, written, h, hsorted => by
      rw [List.pairwise_cons] at hsorted
      rw [writeLoop] at h
      split at h
      · next hdue =>
          obtain ⟨contents, hw, h⟩ := bind_eq_ok.mp h
          obtain ⟨⟨written', left'⟩, hloop, h⟩ := bind_eq_ok.mp h
          cases h
          intro x hx
          have hlt := waiting_of_ok hloop hsorted.2 x hx
          rw [List.length_cons]
          rwa [Nat.add_assoc, Nat.add_comm 1] at hlt
      · next hdue =>
          cases h
          intro x hx
          rcases List.mem_cons.mp hx with rfl | hx
          · exact Nat.lt_of_not_le hdue
          · exact Nat.lt_of_lt_of_le (Nat.lt_of_not_le hdue) (hsorted.1 x hx)

/-- Over packets in the order of their release times, the front is the top. -/
theorem drained_of_ok {clock : Nat → Nat} {k : Nat} {q left : List DelayPktPair}
    {written : List Bytes} (h : writeLoop clock k q = .ok (written, left))
    (hsorted : q.Pairwise fun x y => x.1 ≤ y.1) :
    ∃ out, q = out ++ left ∧ Drained clock k written out left := by
  obtain ⟨out, hq, hleaves⟩ := drain_append (drain_of_ok h)
  refine ⟨out, hq, hleaves, ?_, waiting_of_ok h hsorted⟩
  rw [hq] at hsorted
  exact (List.pairwise_append.mp hsorted).1

/-- A call. One that throws has written what the loop had written by then. -/
def step (s : DelayRun DelayQueue) : FerryCall → Option (DelayRun DelayQueue)
  | .readPacket now contents =>
      some ⟨s.queue.readPacket now contents, s.read ++ [⟨now, s.queue.delayMs, contents⟩], s.written⟩
  | .writePackets clock =>
      match s.queue.writePackets clock with
      | .ok (written, queue) => some ⟨queue, s.read, s.written ++ departures clock 0 written⟩
      | .error _ =>
          let (written, left) := drain clock 0 s.queue.packetQueue
          some ⟨{ s.queue with packetQueue := left }, s.read,
            s.written ++ departures clock 0 written⟩

/-- What holds of a `DelayQueue` between two calls, the next `write_packets`
included. -/
structure OnTime (delayMs : Nat) (s : DelayRun DelayQueue) : Prop where
  delays : ∀ r ∈ s.read, r.delay = delayMs
  everything : s.written.map Prod.snd ++ s.queue.packetQueue.map Prod.snd
    = s.read.map ReadPacket.contents
  inOrder : s.written.map Prod.snd <+: s.read.map ReadPacket.contents
  notEarly : ∀ (i : Nat) w r, s.written[i]? = some w → s.read[i]? = some r →
    r.time + delayMs ≤ w.1
  complete : ∀ clock written queue, s.queue.writePackets clock = .ok (written, queue) →
    ∀ t ∈ lastReading clock written queue.packetQueue,
      ∀ r ∈ s.read.drop (s.written.length + written.length), t < r.time + delayMs
  returns : (∀ r ∈ s.read, r.contents ≠ []) → ∀ clock, ∃ r, s.queue.writePackets clock = .ok r

/-- What every call keeps. -/
structure Inv (delayMs : Nat) (s : DelayRun DelayQueue) : Prop where
  delay : s.queue.delayMs = delayMs
  delays : ∀ r ∈ s.read, r.delay = delayMs
  parted : ∃ gone held, s.read = gone ++ held ∧ Parted s.written gone held s.queue.packetQueue
  sorted : s.read.Pairwise fun r r' => r.time ≤ r'.time

theorem Inv.queue_sorted {delayMs : Nat} {s : DelayRun DelayQueue} (h : Inv delayMs s) :
    s.queue.packetQueue.Pairwise fun x y => x.1 ≤ y.1 := by
  obtain ⟨gone, held, hread, hparted⟩ := h.parted
  have hheld : held.Pairwise fun r r' => r.time ≤ r'.time := by
    have hsorted := h.sorted
    rw [hread] at hsorted
    exact (List.pairwise_append.mp hsorted).2.1
  rw [hparted.queued_eq, List.pairwise_map]
  refine hheld.imp_of_mem fun {r r'} hr hr' hle => ?_
  have hd : r.delay = r'.delay := by
    rw [h.delays r (by rw [hread]; exact List.mem_append_right _ hr),
      h.delays r' (by rw [hread]; exact List.mem_append_right _ hr')]
  show r.time + r.delay ≤ r'.time + r'.delay
  omega

theorem Inv.onTime {delayMs : Nat} {s : DelayRun DelayQueue} (h : Inv delayMs s) :
    OnTime delayMs s := by
  obtain ⟨gone, held, hread, hparted⟩ := h.parted
  have hlen : s.written.length = gone.length := hparted.leaves.length_eq
  have hall : s.written.map Prod.snd ++ s.queue.packetQueue.map Prod.snd
      = s.read.map ReadPacket.contents := by
    rw [hread, hparted.written_eq, hparted.queued_eq, List.map_append, List.map_map]
    rfl
  refine ⟨h.delays, hall, ⟨_, hall⟩, fun i w r hw hr => ?_,
    fun clock written queue hq t ht r hr => ?_, fun hne clock => ?_⟩
  · -- the packet written as the `i`-th was read as the `i`-th
    have hi : i < gone.length := by
      rw [← hlen]
      exact (List.getElem?_eq_some_iff.mp hw).1
    rw [hread, List.getElem?_append_left hi] at hr
    obtain ⟨hi₁, rfl⟩ := List.getElem?_eq_some_iff.mp hw
    obtain ⟨hi₂, rfl⟩ := List.getElem?_eq_some_iff.mp hr
    have hleaves : LeavesAs s.written[i] gone[i].pair := hparted.leaves.get hi₁ hi₂
    have hdelay := h.delays gone[i] (by rw [hread]; exact List.mem_append_left _ (List.getElem_mem _))
    rw [← hdelay]
    exact hleaves.2
  · obtain ⟨⟨written', left⟩, hloop, hret⟩ := bind_eq_ok.mp hq
    cases hret
    obtain ⟨out, hout, hdrained⟩ := drained_of_ok hloop h.queue_sorted
    rw [hout] at hparted
    obtain ⟨going, staying, hheld, hparted'⟩ := hparted.drain hdrained.leaves
    have hsent : written.length = going.length := by
      have hlen' := hparted'.leaves.length_eq
      rw [List.length_append, List.length_append, length_departures] at hlen'
      omega
    have hstaying : s.read.drop (s.written.length + written.length) = staying := by
      rw [hread, hheld, ← List.append_assoc, hlen, hsent, ← List.length_append, List.drop_left]
    rw [hstaying] at hr
    have hdelay := h.delays r (by
      rw [hread, hheld]
      exact List.mem_append_right _ (List.mem_append_right _ hr))
    rw [← hdelay]
    refine hdrained.lastReading_lt t ht r.pair ?_
    rw [hparted'.queued_eq]
    exact List.mem_map_of_mem hr
  · cases hq : s.queue.writePackets clock with
    | ok r => exact ⟨r, rfl⟩
    | error f =>
        exfalso
        cases hloop : writeLoop clock 0 s.queue.packetQueue with
        | ok r => simp [writePackets, hloop] at hq
        | error f' =>
            obtain ⟨x, hx, hnil⟩ := drain_of_error hloop
            rw [hparted.queued_eq, List.mem_map] at hx
            obtain ⟨r, hr, rfl⟩ := hx
            exact hne r (by rw [hread]; exact List.mem_append_right _ hr) hnil

theorem Inv.step {delayMs : Nat} {s s' : DelayRun DelayQueue} {call : FerryCall}
    (h : Inv delayMs s) (hlater : ∀ t ∈ readTimes [call], ∀ r ∈ s.read, r.time ≤ t)
    (hwrap : ∀ t ∈ readTimes [call], t + delayMs < 2 ^ 64) (hstep : step s call = some s') :
    Inv delayMs s' := by
  obtain ⟨gone, held, hread, hparted⟩ := h.parted
  cases call with
  | readPacket now contents =>
      obtain rfl := Option.some.inj hstep
      have hpair : (u64 (now + s.queue.delayMs), contents)
          = ReadPacket.pair ⟨now, s.queue.delayMs, contents⟩ := by
        rw [h.delay, u64_of_lt (hwrap now List.mem_cons_self)]
        rfl
      refine ⟨h.delay, fun r hr => ?_,
        ⟨gone, held ++ [⟨now, s.queue.delayMs, contents⟩], ?_, ?_⟩, ?_⟩
      · rcases List.mem_append.mp hr with hr | hr
        · exact h.delays r hr
        · obtain rfl := List.mem_singleton.mp hr
          exact h.delay
      · show s.read ++ _ = _
        rw [hread, List.append_assoc]
      · show Parted s.written gone _ (s.queue.packetQueue ++ _)
        rw [hpair]
        exact hparted.read _
      · refine List.pairwise_append.mpr ⟨h.sorted, List.pairwise_singleton _ _, fun r hr r' hr' => ?_⟩
        obtain rfl := List.mem_singleton.mp hr'
        exact hlater now List.mem_cons_self r hr
  | writePackets clock =>
      obtain ⟨written, left, hdrain, rfl⟩ : ∃ written left,
          drain clock 0 s.queue.packetQueue = (written, left) ∧
          s' = ⟨{ s.queue with packetQueue := left }, s.read,
            s.written ++ departures clock 0 written⟩ := by
        simp only [DelayQueue.step] at hstep
        cases hq : s.queue.writePackets clock with
        | ok r =>
            obtain ⟨⟨written, left⟩, hloop, hret⟩ := bind_eq_ok.mp hq
            cases hret
            rw [hq] at hstep
            exact ⟨written, left, drain_of_ok hloop, (Option.some.inj hstep).symm⟩
        | error f =>
            rw [hq] at hstep
            exact ⟨_, _, rfl, (Option.some.inj hstep).symm⟩
      obtain ⟨out, hout, hleaves⟩ := drain_append hdrain
      rw [hout] at hparted
      obtain ⟨going, staying, hheld, hparted'⟩ := hparted.drain hleaves
      refine ⟨h.delay, h.delays, ⟨gone ++ going, staying, ?_, hparted'⟩, h.sorted⟩
      show s.read = _
      rw [hread, hheld, List.append_assoc]

theorem always_onTime {delayMs : Nat} : ∀ {calls : List FerryCall} {s : DelayRun DelayQueue},
    Inv delayMs s → (∀ t ∈ readTimes calls, ∀ r ∈ s.read, r.time ≤ t) →
    (readTimes calls).Pairwise (· ≤ ·) → (∀ t ∈ readTimes calls, t + delayMs < 2 ^ 64) →
    Always step (OnTime delayMs) s calls
  | [], _, h, _, _, _ => h.onTime
  | call :: calls, s, h, hlater, hmono, hwrap => by
      have hsplit : readTimes (call :: calls) = readTimes [call] ++ readTimes calls := by
        cases call <;> rfl
      rw [hsplit] at hlater hmono hwrap
      rw [List.pairwise_append] at hmono
      refine ⟨h.onTime, fun s' hs' => ?_⟩
      have h' := h.step (fun t ht => hlater t (List.mem_append_left _ ht))
        (fun t ht => hwrap t (List.mem_append_left _ ht)) hs'
      refine always_onTime h' (fun t ht r hr => ?_) hmono.2.1
        (fun t ht => hwrap t (List.mem_append_right _ ht))
      -- a packet that the call has read was read at its own reading
      have hread : r ∈ s.read ∨ r.time ∈ readTimes [call] := by
        cases call with
        | readPacket now contents =>
            obtain rfl := Option.some.inj hs'
            rcases List.mem_append.mp hr with hr | hr
            · exact .inl hr
            · obtain rfl := List.mem_singleton.mp hr
              exact .inr List.mem_cons_self
        | writePackets clock =>
            refine .inl ?_
            simp only [DelayQueue.step] at hs'
            split at hs' <;> (obtain rfl := Option.some.inj hs'; exact hr)
      rcases hread with hr | hr
      · exact hlater t (List.mem_append_right _ ht) r hr
      · exact hmono.2.2 r.time hr t ht

/-- **DelayQueue delivers on time.** Whatever the delay and the calls, as long
as packets are read at clock readings that do not go back and no release time
wraps: what has been written and what is queued behind it are what has been
read, each packet is written no earlier than its delay after it was read, and a
`write_packets` that returns leaves nothing that is due at its last reading. It
returns unless a packet without any bytes was read. -/
theorem delivers_on_time (delayMs : Nat) (calls : List FerryCall)
    (hmono : (readTimes calls).Pairwise (· ≤ ·))
    (hwrap : ∀ t ∈ readTimes calls, t + delayMs < 2 ^ 64) :
    Always step (OnTime delayMs) (.start (.initial delayMs)) calls := by
  refine always_onTime ⟨rfl, fun r hr => (by cases hr), ⟨[], [], rfl, .nil, rfl⟩, .nil⟩
    (fun t _ r hr => (by cases hr)) hmono hwrap

theorem delivers_on_time_ping :
    Always step (OnTime 10) (.start (.initial 10))
      [.readPacket 5 [1], .writePackets (· + 14), .readPacket 17 [2], .writePackets (· + 20)] :=
  delivers_on_time 10
    [.readPacket 5 [1], .writePackets (· + 14), .readPacket 17 [2], .writePackets (· + 20)]
    (by simp [readTimes]) (by simp [readTimes])

end DelayQueue

/-! ## AdvDelayQueue -/

def DelayRule.delays (rule : DelayRule) : List Nat :=
  [rule.fwdDelay, rule.revDelay, rule.fwdAltDelay, rule.revAltDelay]

/-- Every delay in the table is below `bound`. -/
def DelaysBelow (bound : Nat) (rules : DelayRules) : Prop :=
  ∀ proto ip p rule, storedRule rules proto ip p = some rule → ∀ d ∈ rule.delays, d < bound

theorem delaysBelow_of_mem {bound : Nat} {rules : DelayRules}
    (h : ∀ x ∈ rules, ∀ y ∈ x.2, ∀ z ∈ y.2, ∀ d ∈ z.2.delays, d < bound) :
    DelaysBelow bound rules := by
  have hmem {β : Type} {l : List (Nat × β)} {k : Nat} {b : β} (hl : l.lookup k = some b) :
      (k, b) ∈ l := by
    obtain ⟨l₁, l₂, rfl, -⟩ := List.lookup_eq_some_iff.mp hl
    exact List.mem_append_right _ List.mem_cons_self
  intro proto ip p rule hrule
  rw [storedRule_eq_bind, portRulesAt] at hrule
  obtain ⟨portRules, hports, hrule⟩ := Option.bind_eq_some_iff.mp hrule
  obtain ⟨ipRules, hl, hports⟩ := Option.bind_eq_some_iff.mp hports
  exact h _ (hmem hl) _ (hmem hports) _ (hmem hrule)

theorem DelayRule.delay_mem (uplink : Bool) (rule : DelayRule) :
    rule.delay uplink ∈ rule.delays := by
  cases uplink <;> simp [delay, delays]

theorem DelayRule.delayAfter_mem (uplink : Bool) (rule : DelayRule) (bytes : Nat) :
    rule.delayAfter uplink bytes ∈ rule.delays := by
  unfold delayAfter
  split
  · exact rule.delay_mem uplink
  · cases uplink <;> simp [altDelay, delays]

namespace AdvDelayQueue

variable {K : ReleaseQueue} {q q' : AdvDelayQueue K} {pkt : Bytes} {sz d bound : Nat}

theorem getDelayFor_below (hdelay : q.delayMs < bound) (hrules : DelaysBelow bound q.rules)
    (h : q.getDelayFor pkt sz = .ok (d, q')) : d < bound := by
  rcases getDelayFor_found h with ⟨proto, -, -, hfound⟩ | ⟨-, rfl, -⟩
  case inr => exact hdelay
  cases hfound with
  | none _ => exact hdelay
  | wildcard _ hrule => exact hrules _ _ _ _ hrule _ (DelayRule.delay_mem ..)
  | tcp _ _ _ hrule => exact hrules _ _ _ _ hrule _ (DelayRule.delayAfter_mem ..)
  | udp _ _ hrule => exact hrules _ _ _ _ hrule _ (DelayRule.delay_mem ..)

/-- The loop of `write_packets` over packets that can be written: it comes to
an end, and what it lets out and leaves is what was there. -/
theorem writeLoop_drained (clock : Nat → Nat) : ∀ {n : Nat} (k : Nat) {packets : K.Carrier},
    (K.elements packets).length < n → (∀ x ∈ K.elements packets, x.2 ≠ []) →
    ∃ written packets' out, writeLoop K clock n k packets = .ok (written, packets') ∧
      (out ++ K.elements packets').Perm (K.elements packets) ∧
      Drained clock k written out (K.elements packets')
  | 0, _, _, hn, _ => absurd hn (Nat.not_lt_zero _)
  | n + 1, k, packets, hn, hne => by
      rw [writeLoop]
      cases htop : K.top packets with
      | none =>
          refine ⟨[], packets, [], rfl, .refl _, .stop fun x hx => ?_⟩
          rw [(K.top_eq_none packets).mp htop] at hx
          cases hx
      | some top =>
          have hpop := K.pop_perm packets top htop
          by_cases hdue : top.1 ≤ clock k
          · have hlen : (K.elements (K.pop packets)).length < n := by
              have := hpop.length_eq
              rw [List.length_cons] at this
              omega
            obtain ⟨written, packets', out, hloop, hperm, hdrained⟩ :=
              writeLoop_drained clock (k + 1) hlen
                fun x hx => hne x (hpop.mem_iff.mpr (List.mem_cons_of_mem _ hx))
            refine ⟨top.2 :: written, packets', top :: out, ?_, (hperm.cons top).trans hpop.symm,
              hdrained.cons hdue fun x hx => ?_⟩
            · simp only [if_pos hdue, write_eq_ok (hne top (hpop.mem_iff.mpr List.mem_cons_self)),
                ok_bind, hloop]
              rfl
            · -- what leaves later was there when `top` was on top
              have hx' : x ∈ K.elements (K.pop packets) :=
                hperm.mem_iff.mp (List.mem_append_left _ hx)
              exact K.top_le packets top htop x (hpop.mem_iff.mpr (List.mem_cons_of_mem _ hx'))
          · refine ⟨[], packets, [], by simp only [if_neg hdue], .refl _, .stop fun x hx => ?_⟩
            exact Nat.lt_of_lt_of_le (Nat.lt_of_not_le hdue) (K.top_le packets top htop x hx)

theorem writePackets_drained (clock : Nat → Nat) (hne : ∀ x ∈ K.elements q.packetQueue, x.2 ≠ []) :
    ∃ written packets out, q.writePackets clock = .ok (written, { q with packetQueue := packets }) ∧
      (out ++ K.elements packets).Perm (K.elements q.packetQueue) ∧
      Drained clock 0 written out (K.elements packets) := by
  obtain ⟨written, packets, out, hloop, hperm, hdrained⟩ :=
    writeLoop_drained clock 0 (Nat.lt_succ_self _) hne
  exact ⟨written, packets, out, by simp [writePackets, hloop], hperm, hdrained⟩

/-- A call that does not throw. -/
def step (s : DelayRun (AdvDelayQueue K)) : FerryCall → Option (DelayRun (AdvDelayQueue K))
  | .readPacket now contents =>
      match s.queue.readPacket now contents, LoggedQueue.delayOf s.queue contents with
      | .ok queue, .ok delay => some ⟨queue, s.read ++ [⟨now, delay, contents⟩], s.written⟩
      | _, _ => none
  | .writePackets clock =>
      match s.queue.writePackets clock with
      | .ok (written, queue) => some ⟨queue, s.read, s.written ++ departures clock 0 written⟩
      | .error _ => none

/-- What holds of an `AdvDelayQueue` between two calls, the next
`write_packets` included. -/
structure LosesNothing (s : DelayRun (AdvDelayQueue K)) : Prop where
  balance : (s.written.map Prod.snd ++ (K.elements s.queue.packetQueue).map Prod.snd).Perm
    (s.read.map ReadPacket.contents)
  notEarly : ∃ gone held, (gone ++ held).Perm s.read ∧
    Parted s.written gone held (K.elements s.queue.packetQueue)
  returns : ∀ clock, ∃ r, s.queue.writePackets clock = .ok r
  inOrder : ∀ clock written queue, s.queue.writePackets clock = .ok (written, queue) →
    ∃ out, written = out.map Prod.snd ∧ (out.Pairwise fun x y => x.1 ≤ y.1) ∧
      (out ++ K.elements queue.packetQueue).Perm (K.elements s.queue.packetQueue)
  complete : ∀ clock written queue, s.queue.writePackets clock = .ok (written, queue) →
    ∀ t ∈ lastReading clock written (K.elements queue.packetQueue),
      ∀ x ∈ K.elements queue.packetQueue, t < x.1

/-- What every call keeps. -/
structure Inv (s : DelayRun (AdvDelayQueue K)) : Prop where
  delay : s.queue.delayMs < 2 ^ 63
  rules : DelaysBelow (2 ^ 63) s.queue.rules
  writable : ∀ r ∈ s.read, r.contents ≠ []
  parted : ∃ gone held, (gone ++ held).Perm s.read ∧
    Parted s.written gone held (K.elements s.queue.packetQueue)

theorem Inv.queued_writable {s : DelayRun (AdvDelayQueue K)} (h : Inv s) :
    ∀ x ∈ K.elements s.queue.packetQueue, x.2 ≠ [] := by
  obtain ⟨gone, held, hread, hparted⟩ := h.parted
  intro x hx
  rw [hparted.queued_eq, List.mem_map] at hx
  obtain ⟨r, hr, rfl⟩ := hx
  exact h.writable r (hread.mem_iff.mp (List.mem_append_right _ hr))

theorem Inv.losesNothing {s : DelayRun (AdvDelayQueue K)} (h : Inv s) : LosesNothing s := by
  have hdrain := fun clock => s.queue.writePackets_drained clock h.queued_writable
  refine ⟨?_, h.parted, fun clock => ?_, fun clock written queue hq => ?_,
    fun clock written queue hq => ?_⟩
  · obtain ⟨gone, held, hread, hparted⟩ := h.parted
    have hcontents : Prod.snd ∘ ReadPacket.pair = ReadPacket.contents := rfl
    rw [hparted.written_eq, hparted.queued_eq, List.map_map, hcontents, ← List.map_append]
    exact hread.map _
  · obtain ⟨written, packets, out, hq, -, -⟩ := hdrain clock
    exact ⟨_, hq⟩
  · obtain ⟨written', packets, out, hq', hperm, hdrained⟩ := hdrain clock
    obtain ⟨rfl, rfl⟩ : written' = written ∧ { s.queue with packetQueue := packets } = queue := by
      simpa [hq'] using hq
    exact ⟨out, written_of_leaves hdrained.leaves, hdrained.sorted, hperm⟩
  · obtain ⟨written', packets, out, hq', -, hdrained⟩ := hdrain clock
    obtain ⟨rfl, rfl⟩ : written' = written ∧ { s.queue with packetQueue := packets } = queue := by
      simpa [hq'] using hq
    exact hdrained.lastReading_lt

/-- What a `read_packet` that does not throw does. -/
theorem readPacket_cases {now : Nat} {contents : Bytes}
    (h : q.readPacket now contents = .ok q') : 20 ≤ contents.length ∧ ∃ d q₁,
      (q.counted contents).getDelayFor contents contents.length = .ok (d, q₁) ∧
      q' = { q₁ with packetQueue := K.emplace (u64 (now + d), contents) q₁.packetQueue } := by
  by_cases hsize : contents.length < 20
  · simp [readPacket, hsize] at h
  · rw [readPacket_of_size now hsize] at h
    obtain ⟨⟨d, q₁⟩, hdelay, h⟩ := bind_eq_ok.mp h
    exact ⟨Nat.le_of_not_lt hsize, d, q₁, hdelay, (Except.ok.inj h).symm⟩

theorem Inv.step {s s' : DelayRun (AdvDelayQueue K)} {call : FerryCall} (h : Inv s)
    (hreadings : ∀ t ∈ readTimes [call], t < 2 ^ 63) (hstep : step s call = some s') : Inv s' := by
  obtain ⟨gone, held, hread, hparted⟩ := h.parted
  cases call with
  | readPacket now contents =>
      simp only [AdvDelayQueue.step] at hstep
      cases hq : s.queue.readPacket now contents with
      | error f => simp [hq] at hstep
      | ok queue =>
          obtain ⟨hsize, d, q₁, hdelay, rfl⟩ := readPacket_cases hq
          simp only [hq, LoggedQueue.delayOf, hdelay, ok_bind, pure_eq_ok, Option.some.injEq] at hstep
          subst hstep
          have hlt : d < 2 ^ 63 :=
            getDelayFor_below (q := s.queue.counted contents) h.delay h.rules hdelay
          have hnow := hreadings now List.mem_cons_self
          obtain ⟨hdelayMs, hrules, hpackets⟩ : q₁.delayMs = s.queue.delayMs ∧
              q₁.rules = s.queue.rules ∧ q₁.packetQueue = s.queue.packetQueue :=
            getDelayFor_frame (q := s.queue.counted contents) hdelay
          have hpair : (u64 (now + d), contents) = ReadPacket.pair ⟨now, d, contents⟩ := by
            rw [u64_of_lt (by omega)]
            rfl
          have hqueued : (K.elements (K.emplace (u64 (now + d), contents) q₁.packetQueue)).Perm
              (K.elements s.queue.packetQueue ++ [ReadPacket.pair ⟨now, d, contents⟩]) := by
            rw [hpackets, hpair]
            exact (K.emplace_perm ..).trans (List.perm_append_singleton _ _).symm
          obtain ⟨held', hheld, hparted'⟩ := (hparted.read ⟨now, d, contents⟩).of_perm hqueued
          refine ⟨hdelayMs ▸ h.delay, hrules ▸ h.rules, fun r hr => ?_, gone, held', ?_, hparted'⟩
          · rcases List.mem_append.mp hr with hr | hr
            · exact h.writable r hr
            · obtain rfl := List.mem_singleton.mp hr
              show contents ≠ []
              rintro rfl
              simp at hsize
          · refine (hheld.append_left gone).trans ?_
            rw [← List.append_assoc]
            exact hread.append_right _
  | writePackets clock =>
      obtain ⟨written, packets, out, hq, hperm, hdrained⟩ :=
        s.queue.writePackets_drained clock h.queued_writable
      simp only [AdvDelayQueue.step, hq, Option.some.injEq] at hstep
      subst hstep
      obtain ⟨held', hheld, hparted'⟩ := hparted.of_perm hperm
      obtain ⟨going, staying, rfl, hparted''⟩ := hparted'.drain hdrained.leaves
      refine ⟨h.delay, h.rules, h.writable, gone ++ going, staying, ?_, hparted''⟩
      rw [List.append_assoc]
      exact (hheld.append_left gone).trans hread

theorem always_losesNothing : ∀ {calls : List FerryCall} {s : DelayRun (AdvDelayQueue K)},
    Inv s → (∀ t ∈ readTimes calls, t < 2 ^ 63) → Always step LosesNothing s calls
  | [], _, h, _ => h.losesNothing
  | call :: calls, s, h, hreadings => by
      have hsplit : readTimes (call :: calls) = readTimes [call] ++ readTimes calls := by
        cases call <;> rfl
      rw [hsplit] at hreadings
      exact ⟨h.losesNothing, fun s' hs' => always_losesNothing
        (h.step (fun t ht => hreadings t (List.mem_append_left _ ht)) hs')
        fun t ht => hreadings t (List.mem_append_right _ ht)⟩

/-- **AdvDelayQueue loses nothing.** Whatever the rules, the direction and the
priority queue, as long as no delay and no clock reading is `2 ^ 63` or more:
what has been written and what is queued is what has been read, each packet
let out no earlier than its own delay after it was read; one `write_packets`
writes in the order of the release times, and leaves nothing that is due at
its last reading. -/
theorem adv_loses_nothing (K : ReleaseQueue) (delayMs : Nat) (rules : DelayRules) (uplink : Bool)
    (calls : List FerryCall) (hdelay : delayMs < 2 ^ 63) (hrules : DelaysBelow (2 ^ 63) rules)
    (hreadings : ∀ t ∈ readTimes calls, t < 2 ^ 63) :
    Always step LosesNothing (.start (.initial K delayMs rules uplink)) calls := by
  refine always_losesNothing ⟨hdelay, hrules, fun r hr => (by cases hr), [], [], .nil, .nil, ?_⟩
    hreadings
  exact K.elements_empty

/-- Two packets of a rule that switches, so that the second is delayed by 30 ms,
and a packet behind them that is delayed by 5 ms and overtakes it. -/
theorem adv_loses_nothing_switching :
    Always step LosesNothing (.start (.initial (Heap.queue Prod.fst) 5 LoggedQueue.switching true))
      [.readPacket 0 LoggedQueue.toServer, .readPacket 1 LoggedQueue.toServer, .readPacket 2 echoRequest,
        .writePackets (· + 12)] := by
  have hrules : ∀ x ∈ LoggedQueue.switching, ∀ y ∈ x.2, ∀ z ∈ y.2, ∀ d ∈ z.2.delays, d < 2 ^ 63 := by
    decide +kernel
  exact adv_loses_nothing (Heap.queue Prod.fst) 5 LoggedQueue.switching true
    [.readPacket 0 LoggedQueue.toServer, .readPacket 1 LoggedQueue.toServer, .readPacket 2 echoRequest,
      .writePackets (· + 12)] (by decide) (delaysBelow_of_mem hrules) (by simp [readTimes])

end AdvDelayQueue

end Mahimahi
