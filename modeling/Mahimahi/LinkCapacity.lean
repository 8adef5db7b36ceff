import Mahimahi.LinkGraph

/-!
# The link does not exceed its trace

A trace says when the link may deliver, and how much: one opportunity carries
`packetSize` bytes. A packet counts as delivered when its last byte is, so an
opportunity can deliver more than that; the bytes in excess have been carried by the
opportunities before it. In any window of the log that begins with an opportunity, these
are less than one packet.

`Within` says so of a log, together with what is owed to it: the bytes of the packet in
transit that have been carried, and those that are left of the opportunity in use. What
may be owed decides which records can be added (`Within.append`).
-/

namespace Mahimahi

namespace Record

/-- The bytes that the record delivers. -/
def carried : Record → Nat
  | departure _ packet => packet.size
  | _ => 0

/-- The bytes that the record has room for. -/
def room : Record → Nat
  | opportunity _ size => size
  | _ => 0

/-- The bytes that the record is about; a drop may be about more than a packet. -/
def bytes : Record → Nat
  | arrival _ size => size
  | drop _ _ _ => 0
  | opportunity _ size => size
  | departure _ packet => packet.size

/-- The record is an opportunity. -/
def isOpportunity : Record → Bool
  | opportunity _ _ => true
  | _ => false

end Record

/-- The bytes that have been delivered, and those that there was room for. -/
def carried (rs : List Record) : Nat := (rs.map Record.carried).sum

def room (rs : List Record) : Nat := (rs.map Record.room).sum

theorem carried_concat (rs : List Record) (r : Record) :
    carried (rs ++ [r]) = carried rs + r.carried := by
  simp [carried]

theorem room_concat (rs : List Record) (r : Record) : room (rs ++ [r]) = room rs + r.room := by
  simp [room]

/-- The window begins with an opportunity. -/
def Opens (rs : List Record) : Prop := ∃ r ∈ rs.head?, r.isOpportunity = true

/-- No part of the log from its beginning delivers more than it has room for, nor does a
window exceed its room by a whole packet; at the end of the log, `owed` bytes more have
their room. -/
structure Within (owed : Nat) (rs : List Record) : Prop where
  total : carried rs + owed ≤ room rs
  totals : ∀ pre, pre <+: rs → carried pre ≤ room pre
  window : ∀ pre mid, rs = pre ++ mid → Opens mid → carried mid + owed < room mid + packetSize
  windows : ∀ pre mid post, rs = pre ++ mid ++ post → Opens mid →
    carried mid < room mid + packetSize

namespace Within

variable {owed owed' : Nat} {rs : List Record}

theorem nil : Within 0 [] where
  total := Nat.le_refl 0
  totals pre hpre := by
    rw [List.prefix_nil.mp hpre]
    exact Nat.le_refl 0
  window pre mid h hopens := by
    obtain ⟨-, rfl⟩ := List.append_eq_nil_iff.mp h.symm
    obtain ⟨r, hr, -⟩ := hopens
    cases hr
  windows pre mid post h hopens := by
    obtain ⟨hmid, -⟩ := List.append_eq_nil_iff.mp h.symm
    obtain ⟨-, rfl⟩ := List.append_eq_nil_iff.mp hmid
    obtain ⟨r, hr, -⟩ := hopens
    cases hr

theorem mono (h : Within owed rs) (hle : owed' ≤ owed) : Within owed' rs where
  total := Nat.le_trans (Nat.add_le_add_left hle _) h.total
  totals := h.totals
  window pre mid heq hopens := by
    have := h.window pre mid heq hopens
    omega
  windows := h.windows

/-- What a record delivers and what is owed after it has to come from what was owed
before and from its own room. A record that opens a window brings less than a packet along. -/
theorem append {r : Record} (h : Within owed rs) (hle : r.carried + owed' ≤ owed + r.room)
    (hopens : r.isOpportunity = true → r.carried + owed' < r.room + packetSize) :
    Within owed' (rs ++ [r]) := by
  have htotal : carried (rs ++ [r]) + owed' ≤ room (rs ++ [r]) := by
    have := h.total
    rw [carried_concat, room_concat]
    omega
  have hwindow : ∀ pre mid, rs ++ [r] = pre ++ mid → Opens mid →
      carried mid + owed' < room mid + packetSize := by
    intro pre mid heq hmid
    rcases List.eq_nil_or_concat mid with rfl | ⟨mid', r', rfl⟩
    · obtain ⟨r', hr', -⟩ := hmid
      cases hr'
    · rw [List.concat_eq_append, ← List.append_assoc] at heq
      obtain ⟨hrs, hr⟩ := List.append_inj' heq rfl
      obtain rfl := List.singleton_inj.mp hr
      rw [List.concat_eq_append] at hmid ⊢
      rw [carried_concat, room_concat]
      cases mid' with
      | nil =>
          obtain ⟨r', hr', hopen⟩ := hmid
          cases hr'
          have := hopens hopen
          simpa [carried, room] using this
      | cons r₀ mid' =>
          have hopens' : Opens (r₀ :: mid') := hmid
          have := h.window pre (r₀ :: mid') hrs hopens'
          omega
  refine ⟨htotal, fun pre hpre => ?_, hwindow, fun pre mid post heq hmid => ?_⟩
  · rcases List.prefix_concat_iff.mp hpre with rfl | hpre
    · omega
    · exact h.totals pre hpre
  · rcases List.eq_nil_or_concat post with rfl | ⟨post', r', rfl⟩
    · rw [List.append_nil] at heq
      have := hwindow pre mid heq hmid
      omega
    · rw [List.concat_eq_append, ← List.append_assoc] at heq
      exact h.windows pre mid post' (List.append_inj' heq rfl).1 hmid

theorem opportunity (h : Within owed rs) (howed : owed < packetSize) (t : Nat) :
    Within (owed + packetSize) (rs ++ [.opportunity t packetSize]) :=
  h.append (Nat.le_of_eq (Nat.zero_add _)) fun _ => by
    show 0 + (owed + packetSize) < packetSize + packetSize
    omega

theorem departure {p : QueuedPacket} (h : Within (p.size + owed) rs) (t : Nat) :
    Within owed (rs ++ [.departure t p]) :=
  h.append (Nat.le_refl _) fun hopen => by cases hopen

end Within

/-! ## The link -/

namespace LinkQueue

variable {tr : Trace} {W : Arith} {world : Nat → Env} {q q' : LinkQueue tr (PacketQueue W)}

/-- The bytes of the packet in transit that have been carried. -/
def moved (q : LinkQueue tr (PacketQueue W)) : Nat :=
  if q.packetInTransitBytesLeft = 0 then 0
  else q.packetInTransit.size - q.packetInTransitBytesLeft

/-- The log keeps within the trace, `spare` bytes being left of the opportunity in use, and
no packet of the link is larger than an opportunity. -/
structure Keeps (spare : Nat) (q : LinkQueue tr (PacketQueue W)) : Prop where
  valid : q.packetQueue.Valid
  queued : ∀ p ∈ q.packetQueue.contents, p.size ≤ packetSize
  inTransit : 0 < q.packetInTransitBytesLeft → q.packetInTransit.size ≤ packetSize
  log : Within (q.moved + spare) q.records
  records : ∀ r ∈ q.records, r.bytes ≤ packetSize

variable {spare : Nat}

theorem Keeps.moved_lt (h : Keeps spare q) : q.moved < packetSize := by
  have hpos : 0 < packetSize := Nat.succ_pos _
  unfold moved
  split
  · exact hpos
  · have := h.inTransit (by omega)
    omega

theorem Keeps.concat (h : Keeps spare q) {r : Record} (hr : r.bytes ≤ packetSize) :
    ∀ r' ∈ q.records ++ [r], r'.bytes ≤ packetSize := by
  intro r' hr'
  rcases List.mem_append.mp hr' with hr' | hr'
  · exact h.records r' hr'
  · obtain rfl := List.mem_singleton.mp hr'
    exact hr

theorem Keeps.use (h : Keeps 0 q) : Keeps packetSize q.useADeliveryOpportunity where
  valid := h.valid
  queued := h.queued
  inTransit := h.inTransit
  log := h.log.opportunity h.moved_lt _
  records := h.concat (Nat.le_refl _)

theorem Keeps.fetch (h : Keeps spare q) (hf : LinkQueue.fetch world q = .ok (some q')) :
    Keeps spare q' := by
  rcases fetch_cases hf with ⟨-, -, hn⟩ | ⟨-, hs⟩ | ⟨hzero, p, packetQueue, hd, hs⟩
  · cases hn
  · cases hs
    exact h
  · cases hs
    obtain ⟨hvalid, lost, hcons, -⟩ := PacketQueue.dequeue_spec h.valid hd
    have hsize : p.size ≤ packetSize := h.queued p (by rw [hcons]; exact List.mem_cons_self)
    have hpacketSize : packetSize < 2 ^ 32 := by decide
    refine ⟨hvalid, fun p' hp' => h.queued p' (by rw [hcons]; simp [hp']), fun _ => hsize, ?_,
      h.records⟩
    refine h.log.mono ?_
    have hu32 : u32 p.size = p.size := u32_of_lt (by omega)
    simp only [moved, hu32, Nat.sub_self, ite_self]
    omega

/-- What is sent comes out of the opportunity; with its last byte, the packet departs. -/
theorem Keeps.send {t : Nat} (h : Keeps spare q) (ht : InTransit t q) :
    Keeps (spare - min spare q.packetInTransitBytesLeft)
      (q.send t (min spare q.packetInTransitBytesLeft)) := by
  have hpos := ht.pos
  have hle := ht.le_size
  have hmoved : q.moved = q.packetInTransit.size - q.packetInTransitBytesLeft :=
    if_neg (Nat.pos_iff_ne_zero.mp hpos)
  have hlog := h.log
  rw [hmoved] at hlog
  simp only [LinkQueue.send]
  split
  · next hlast =>
      refine ⟨h.valid, h.queued, fun _ => h.inTransit hpos, ?_, h.concat (h.inTransit hpos)⟩
      refine Within.departure (hlog.mono ?_) t
      simp only [moved, hlast, if_true]
      omega
  · next hmore =>
      refine ⟨h.valid, h.queued, fun _ => h.inTransit hpos, hlog.mono ?_, h.records⟩
      simp only [moved, if_neg hmore]
      omega

theorem Keeps.deliver (h : Keeps 0 q) (hd : LinkQueue.deliver world q = .ok q') : Keeps 0 q' := by
  obtain ⟨bytesLeft, hkeeps, -⟩ := deliver_invariant hd (I := fun bytesLeft s => Keeps bytesLeft s)
    h.use fun _ s s₁ hI _ hf ht => (hI.fetch hf).send ht
  exact ⟨hkeeps.valid, hkeeps.queued, hkeeps.inTransit, hkeeps.log.mono (by omega), hkeeps.records⟩

theorem Keeps.rationalize {now : Nat} (h : Keeps 0 q)
    (hr : LinkQueue.rationalize world now q = .ok q') : Keeps 0 q' :=
  rationalize_invariant hr (I := Keeps 0) h fun _ _ hI _ hd => hI.deliver hd

theorem Keeps.accept {now : Nat} {contents : Bytes} {env : Env} (h : Keeps 0 q)
    (hsize : contents.length ≤ packetSize) (ha : LinkQueue.accept now contents env q = .ok q') :
    Keeps 0 q' := by
  have hfits := fits_of_le_packetSize (W := W) hsize
  obtain ⟨packetQueue, he, hvalid, -, -, heq⟩ := LinkQueue.accept_of_valid h.valid hfits ha
  have hsizes : ∀ p ∈ packetQueue.contents, p.size ≤ packetSize := by
    have hoffered : ∀ p ∈ q.packetQueue.contents ++ [⟨now, contents⟩], p.size ≤ packetSize := by
      intro p hp
      rcases List.mem_append.mp hp with hp | hp
      · exact h.queued p hp
      · obtain rfl := List.mem_singleton.mp hp
        exact hsize
    rcases PacketQueue.enqueue_takes (p := ⟨now, contents⟩) h.valid hfits he with
      ⟨-, hcontents⟩ | ⟨-, -, hsub⟩
    · exact fun p hp => hoffered p (hcontents ▸ hp)
    · exact fun p hp => hoffered p (hsub.subset hp)
  have hlog : Within (q.moved + 0) (q.records ++ [.arrival now contents.length]) :=
    h.log.append (Nat.le_of_eq (Nat.zero_add _)) fun hopen => by cases hopen
  have harrival := h.concat (r := .arrival now contents.length) hsize
  rw [heq]
  split
  · refine ⟨hvalid, hsizes, h.inTransit,
      hlog.append (Nat.le_of_eq (Nat.zero_add _)) (fun hopen => by cases hopen), fun r hr => ?_⟩
    rcases List.mem_append.mp hr with hr | hr
    · exact harrival r hr
    · obtain rfl := List.mem_singleton.mp hr
      exact Nat.zero_le _
  · exact ⟨hvalid, hsizes, h.inTransit, hlog, harrival⟩

theorem Keeps.run : ∀ (calls : List LinkCall) {q q' : LinkQueue tr (PacketQueue W)}
    {written : List Bytes}, Keeps 0 q → LinkQueue.run world calls q = .ok (written, q') → Keeps 0 q'
  | [], _, _, _, h, hrun => by
      cases hrun
      exact h
  | c :: calls, q, q', written, h, hrun => by
      obtain ⟨⟨_, q₁⟩, hc, r', hmore, heq⟩ := run_cons_eq_ok.mp hrun
      cases heq
      have h₁ : Keeps 0 q₁ := by
        cases called_of_call hc with
        | readPacket hsize hr ha => exact (h.rationalize hr).accept hsize ha
        | waitTime hr => exact h.rationalize hr
        | writePackets _ heq =>
            subst heq
            exact ⟨h.valid, h.queued, h.inTransit, h.log, h.records⟩
      exact Keeps.run calls h₁ hmore

theorem keeps_initial (tr : Trace) (W : Arith) (t : QueueType) (start : Nat) :
    Keeps 0 (initial tr (getPacketQueue W start t) start) where
  valid := PacketQueue.valid_getPacketQueue start t
  queued p hp := by
    rw [show (initial tr (getPacketQueue W start t) start).packetQueue.contents = [] from
      PacketQueue.contents_getPacketQueue start t] at hp
    cases hp
  inTransit hpos := absurd hpos (Nat.lt_irrefl 0)
  log := .nil
  records r hr := by cases hr

/-- **No discipline makes the link faster than its trace.** In every run, over any trace
and with any discipline: at no point of the log have more bytes departed than the
opportunities up to there have room for; and of any window of the log that begins with an
opportunity, the departures exceed the opportunities in it by less than one packet. -/
theorem keeps_to_trace (tr : Trace) (W : Arith) (start : Nat) (t : QueueType) (world : Nat → Env)
    (calls : List LinkCall) (written : List Bytes) (q : LinkQueue tr (PacketQueue W))
    (hrun : run world calls (initial tr (getPacketQueue W start t) start) = .ok (written, q)) :
    (∀ pre, pre <+: q.records → carried pre ≤ room pre) ∧
      ∀ pre mid post, q.records = pre ++ mid ++ post → Opens mid →
        carried mid < room mid + packetSize := by
  have h := (keeps_initial tr W t start).run calls hrun
  exact ⟨h.log.totals, h.log.windows⟩

/-- Three packets of 1,000 bytes, and two opportunities. -/
def threePackets : List LinkCall :=
  (List.range 3).map (fun i => .readPacket 1 (List.replicate 1000 i.toUInt8) ⟨1, 1, 0⟩)
    ++ [.waitTime 200]

/-- The second opportunity delivers two of them, with what the first has carried. -/
theorem keeps_to_trace_threePackets :
    ∃ written q, run (fun _ => ⟨0, 0, 0⟩) threePackets
        (initial twoOpportunities (getPacketQueue .machine 0 (.droptail ⟨9, 0⟩)) 0)
          = .ok (written, q) ∧
      carried q.records = 3000 ∧ carried q.records ≤ room q.records ∧
        carried (q.records.drop 5) = 2000 ∧ 2000 < room (q.records.drop 5) + packetSize := by
  have hrun : ((run (fun _ => ⟨0, 0, 0⟩) threePackets
      (initial twoOpportunities (getPacketQueue .machine 0 (.droptail ⟨9, 0⟩)) 0)).toOption.map
        fun r => (carried r.2.records, carried (r.2.records.drop 5),
          (r.2.records.drop 5).head?.map Record.isOpportunity)) = some (3000, 2000, some true) := by
    decide +kernel
  cases h : run (fun _ => ⟨0, 0, 0⟩) threePackets
      (initial twoOpportunities (getPacketQueue .machine 0 (.droptail ⟨9, 0⟩)) 0) with
  | error e =>
      rw [h] at hrun
      cases hrun
  | ok r =>
      rw [h] at hrun
      obtain ⟨hall, hrest⟩ := Prod.mk.inj (Option.some.inj hrun)
      obtain ⟨hwindow, hopens⟩ := Prod.mk.inj hrest
      obtain ⟨hfront, hwindows⟩ := keeps_to_trace twoOpportunities .machine 0 (.droptail ⟨9, 0⟩)
        (fun _ => ⟨0, 0, 0⟩) threePackets r.1 r.2 h
      refine ⟨r.1, r.2, rfl, hall, hfront _ (List.prefix_refl _), hwindow, ?_⟩
      rw [← hwindow]
      refine hwindows (r.2.records.take 5) (r.2.records.drop 5) [] ?_ ?_
      · rw [List.append_nil, List.take_append_drop]
      · obtain ⟨record, hrecord, hopportunity⟩ := Option.map_eq_some_iff.mp hopens
        exact ⟨record, hrecord, hopportunity⟩

end LinkQueue

end Mahimahi
