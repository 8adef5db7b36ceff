import Mahimahi.LinkClock
import Mahimahi.LinkGraph

/-!
# The order of packets

No discipline lets a packet pass another one: `dequeue` takes from the front, `enqueue`
appends, and what is dropped only makes the queue shorter. So the packets that have
departed, then the one in transit, then those that wait (`history`) are always a part of
the packets that have been read, in the order in which they were read; and the clock does
not go back between two reads (`LoggedLink.ArrivalOrder`).

The departures are at the times of opportunities, which come in the order of time as long
as the clock does not overflow (`LoggedLink.departs_in_order`).
-/

namespace Mahimahi

namespace LinkQueue

variable {tr : Trace} {W : Arith}

theorem use_departed (q : LinkQueue tr (PacketQueue W)) :
    q.useADeliveryOpportunity.departed = q.departed := by
  simp [useADeliveryOpportunity, record, departed]

theorem accept_departed {now : Nat} {contents : Bytes} {env : Env} {q q' : LinkQueue tr (PacketQueue W)}
    (h : LinkQueue.accept now contents env q = .ok q') : q'.departed = q.departed := by
  obtain ⟨_, _, _, drops, -, -, -, hdrops, rfl⟩ := accept_eq_ok h
  rcases hdrops with rfl | ⟨t, n, b, rfl⟩ <;> simp [departed]

/-- The packets that have departed, that are in transit and that wait. -/
def history (q : LinkQueue tr (PacketQueue W)) : List QueuedPacket :=
  q.departed.map Prod.snd ++ q.inTransit ++ q.packetQueue.contents

section

variable {world : Nat → Env} {start t : Nat} {q q' : LinkQueue tr (PacketQueue W)}

theorem Dated.fetch_history (h : Dated start q) (hf : LinkQueue.fetch world q = .ok (some q')) :
    q'.history.Sublist q.history := by
  rcases fetch_cases hf with ⟨-, -, hn⟩ | ⟨-, hs⟩ | ⟨hzero, p, packetQueue, hd, hs⟩
  · cases hn
  · cases hs
    exact List.Sublist.refl _
  · cases hs
    obtain ⟨-, lost, hcons, -⟩ := PacketQueue.dequeue_spec h.valid hd
    have htransit : q.inTransit = [] := if_pos hzero
    have hfetched : ∀ left : Nat, (if left = 0 then [] else [p]).Sublist [p] := by
      intro left
      split <;> simp
    rw [history, history, htransit, hcons, List.append_nil, List.append_assoc]
    refine List.Sublist.append_left ?_ _
    exact (hfetched _).append (List.sublist_append_right lost _)

theorem send_history (ht : InTransit t q) (amount : Nat) : (q.send t amount).history = q.history := by
  have htransit := inTransit_of_pos ht.pos
  simp only [LinkQueue.send]
  split
  · next hzero =>
      rw [history, history, htransit, inTransit, if_pos hzero]
      simp [departed, record]
  · next hpos =>
      rw [history, history, htransit, inTransit_of_pos (Nat.pos_of_ne_zero hpos)]
      rfl

theorem Dated.deliver_history (h : Dated start q) (hd : LinkQueue.deliver world q = .ok q') :
    q'.history.Sublist q.history := by
  have huse : q.useADeliveryOpportunity.history = q.history := by
    have hdeparted : q.useADeliveryOpportunity.departed = q.departed := use_departed q
    rw [history, history, hdeparted]
    rfl
  obtain ⟨-, hI, -⟩ := deliver_invariant hd
    (I := fun _ s => Dated start s ∧ s.history.Sublist q.history)
    ⟨h.use.1, huse ▸ List.Sublist.refl _⟩ fun _ s s₁ hI _ hf ht => by
      refine ⟨((hI.1.fetch hf).1.send ht _).1, ?_⟩
      rw [send_history ht]
      exact (hI.1.fetch_history hf).trans hI.2
  exact hI.2

theorem Dated.rationalize_history {now : Nat} (h : Dated start q)
    (hr : LinkQueue.rationalize world now q = .ok q') : q'.history.Sublist q.history :=
  (rationalize_invariant hr (I := fun s => Dated start s ∧ s.history.Sublist q.history)
    ⟨h, List.Sublist.refl _⟩ fun _ _ hI _ hd =>
      ⟨(hI.1.deliver hd).1, (hI.1.deliver_history hd).trans hI.2⟩).2

/-- A packet that is read comes behind the others, or is dropped. -/
theorem Dated.accept_history {now : Nat} {contents : Bytes} {env : Env} (h : Dated start q)
    (hsize : W.Fits contents.length) (ha : LinkQueue.accept now contents env q = .ok q') :
    q'.history.Sublist (q.history ++ [⟨now, contents⟩]) := by
  have hdeparted := accept_departed ha
  obtain ⟨packetQueue, bytes, packets, drops, he, -, -, -, rfl⟩ := accept_eq_ok ha
  have hcontents : packetQueue.contents.Sublist (q.packetQueue.contents ++ [⟨now, contents⟩]) := by
    rcases PacketQueue.enqueue_takes (p := ⟨now, contents⟩) h.valid hsize he with
      ⟨-, hcontents⟩ | ⟨-, -, hsub⟩
    · rw [hcontents]
    · exact hsub
  rw [history, history, hdeparted, List.append_assoc _ q.packetQueue.contents]
  exact hcontents.append_left _

end

/-! ## The times of the departures -/

/-- The departures are in the order of time, and none is later than `t`. -/
structure DepartedBy (t : Nat) (q : LinkQueue tr (PacketQueue W)) : Prop where
  sorted : (q.departed.map Prod.fst).Pairwise (· ≤ ·)
  le : ∀ d ∈ q.departed, d.1 ≤ t

section

variable {world : Nat → Env} {start T t now : Nat} {q q' : LinkQueue tr (PacketQueue W)}

theorem DepartedBy.send (h : DepartedBy t q) (amount : Nat) : DepartedBy t (q.send t amount) := by
  simp only [LinkQueue.send]
  split
  · have hdeparted : (q.record (.departure t q.packetInTransit)).departed
        = q.departed ++ [(t, q.packetInTransit)] := by
      simp [departed, record]
    refine ⟨?_, fun d hd => ?_⟩
    · show (List.map Prod.fst (q.record (.departure t q.packetInTransit)).departed).Pairwise _
      rw [hdeparted, List.map_append, List.pairwise_append]
      refine ⟨h.sorted, List.pairwise_singleton _ _, fun u hu v hv => ?_⟩
      obtain ⟨d, hd, rfl⟩ := List.mem_map.mp hu
      obtain rfl : v = t := by simpa using hv
      exact h.le d hd
    · have hd : d ∈ q.departed ++ [(t, q.packetInTransit)] := hdeparted ▸ hd
      rcases List.mem_append.mp hd with hd | hd
      · exact h.le d hd
      · rw [List.mem_singleton.mp hd]
  · exact ⟨h.sorted, h.le⟩

theorem DepartedBy.deliver (h : DepartedBy q.nextDeliveryTime q)
    (hd : LinkQueue.deliver world q = .ok q') : DepartedBy q.nextDeliveryTime q' := by
  have hdeparted := use_departed q
  obtain ⟨-, hI, -⟩ := deliver_invariant hd (I := fun _ s => DepartedBy q.nextDeliveryTime s)
    ⟨hdeparted ▸ h.sorted, hdeparted ▸ h.le⟩ fun _ s s₁ hI _ hf _ => by
      have hs₁ : DepartedBy q.nextDeliveryTime s₁ := by
        obtain ⟨_, _, _, _, rfl⟩ := fetch_frame hf
        exact ⟨hI.sorted, hI.le⟩
      exact hs₁.send _
  exact hI

/-- On the schedule, and no departure is later than the next opportunity. -/
structure Punctual (start T : Nat) (q : LinkQueue tr (PacketQueue W)) : Prop where
  onSchedule : q.OnSchedule start T
  departed : DepartedBy q.nextDeliveryTime q

theorem Punctual.rationalize (hwrap : tr.NoWraparound start T) (h : Punctual start T q) (hnow : now ≤ T)
    (hr : LinkQueue.rationalize world now q = .ok q') : Punctual start T q' :=
  rationalize_invariant hr h fun s s' hI hdue hd => by
    have hnext := hI.onSchedule.next_le hwrap hnow hdue hd
    have hdeparted := hI.departed.deliver hd
    exact ⟨(hI.onSchedule.deliver hwrap hnow hdue hd).2, hdeparted.sorted,
      fun d hd => (hdeparted.le d hd).trans hnext⟩

theorem Punctual.accept {contents : Bytes} {env : Env} (h : Punctual start T q)
    (ha : LinkQueue.accept now contents env q = .ok q') : Punctual start T q' := by
  have hdeparted := accept_departed ha
  obtain ⟨packetQueue, bytes, packets, drops, -, -, -, -, rfl⟩ := accept_eq_ok ha
  exact ⟨h.onSchedule, hdeparted ▸ h.departed.sorted, hdeparted ▸ h.departed.le⟩

end

end LinkQueue

/-! ## Runs -/

namespace LoggedLink

variable {tr : Trace} {W : Arith} {world : Nat → Env} {s s' : LoggedLink tr W} {c : LinkCall}

/-- The packets have arrived in the order of the history, and by the last clock reading. -/
structure ArrivalOrder (s : LoggedLink tr W) : Prop where
  sorted : s.link.history.Pairwise fun p p' => p.arrivalTime ≤ p'.arrivalTime
  le_reading : ∀ p ∈ s.link.history, p.arrivalTime ≤ s.reading

theorem arrivalOrder_start (tr : Trace) (W : Arith) (t : QueueType) (now : Nat) :
    (start tr W t now).ArrivalOrder := by
  have hhistory : (start tr W t now).link.history = [] := by
    have hcontents : (start tr W t now).link.packetQueue.contents = [] :=
      PacketQueue.contents_getPacketQueue now t
    rw [LinkQueue.history, hcontents]
    rfl
  exact ⟨hhistory ▸ .nil, by simp [hhistory]⟩

theorem ArrivalOrder.of_sublist (h : s.ArrivalOrder) (hreading : s.reading ≤ s'.reading)
    (ps : List QueuedPacket) (hps : ∀ p ∈ ps, p.arrivalTime = s'.reading)
    (hsub : s'.link.history.Sublist (s.link.history ++ ps)) : s'.ArrivalOrder := by
  have hle : ∀ p ∈ s.link.history ++ ps, p.arrivalTime ≤ s'.reading := by
    intro p hp
    rcases List.mem_append.mp hp with hp | hp
    · exact (h.le_reading p hp).trans hreading
    · exact (hps p hp).le
  refine ⟨?_, fun p hp => hle p (hsub.subset hp)⟩
  refine List.Pairwise.sublist hsub (List.pairwise_append.mpr ⟨h.sorted, ?_, fun p hp p' hp' => ?_⟩)
  · refine List.pairwise_of_forall_mem_list fun p hp p' hp' => ?_
    rw [hps p hp, hps p' hp']
  · rw [hps p' hp']
    exact (h.le_reading p hp).trans hreading

theorem ArrivalOrder.step (h : s.ArrivalOrder) (hinv : s.Inv) (hs : s.step world c = some s') :
    s'.ArrivalOrder := by
  obtain ⟨written, hcall, -, hreading, hnow⟩ := step_eq_some hs
  cases LinkQueue.called_of_call hcall with
  | @readPacket now _ _ _ _ hsize hr ha =>
      obtain rfl := hnow now rfl
      have haccept := (hinv.dated.rationalize hr).1.accept_history
        (LinkQueue.fits_of_le_packetSize hsize) ha
      exact h.of_sublist hreading _ (by simp)
        (haccept.trans ((hinv.dated.rationalize_history hr).append_right _))
  | waitTime hr =>
      exact h.of_sublist hreading [] (by simp) (by
        simpa using hinv.dated.rationalize_history hr)
  | writePackets _ hlink =>
      have hhistory : s'.link.history = s.link.history := by
        rw [hlink]
        rfl
      exact h.of_sublist hreading [] (by simp) (by simp [hhistory])

/-- The departure times in the log do not go back. -/
def DepartsInOrder (s : LoggedLink tr W) : Prop := (s.link.departed.map Prod.fst).Pairwise (· ≤ ·)

theorem punctual_step {start T : Nat} (hwrap : tr.NoWraparound start T)
    (h : LinkQueue.Punctual start T s.link) (hc : ∀ now ∈ c.now, now ≤ T)
    (hs : s.step world c = some s') : LinkQueue.Punctual start T s'.link := by
  obtain ⟨written, hcall, -, -, -⟩ := step_eq_some hs
  cases LinkQueue.called_of_call hcall with
  | @readPacket now _ _ _ _ _ hr ha => exact (h.rationalize hwrap (hc now rfl) hr).accept ha
  | @waitTime now _ hr => exact h.rationalize hwrap (hc now rfl) hr
  | writePackets _ hlink =>
      rw [hlink]
      exact ⟨h.onSchedule, h.departed.sorted, h.departed.le⟩

/-- **Departures in the order of time**, as long as the clock does not overflow. -/
theorem departs_in_order (W : Arith) (t : QueueType) (world : Nat → Env) {now T : Nat}
    (hwrap : tr.NoWraparound now T) {calls : List LinkCall}
    (h : EachStep (step world) (fun _ c => ∀ r ∈ c.now, r ≤ T) (start tr W t now) calls) :
    Always (step world) DepartsInOrder (start tr W t now) calls :=
  always_of_eachStep (I := fun s => LinkQueue.Punctual now T s.link)
    (P := DepartsInOrder) (fun _ h => h.departed.sorted)
    (fun _ _ _ h hs hc => punctual_step hwrap h hc hs)
    ⟨LinkQueue.onSchedule_initial tr _ now T, .nil,
      by simp [start, LinkQueue.initial, LinkQueue.departed]⟩
    h

end LoggedLink

end Mahimahi
