import Mathlib.Data.List.GetD
import Mathlib.Logic.Function.Iterate
import Mahimahi.LinkQueue

/-!
# The clock of the link, and polling

The opportunities of a trace, computed without bounds on the integers: the
`k`-th one is at `tr.time (tr.cursorAt start k)`. `tr.NoWraparound start T`
says that none of those up to the first one after `T` leaves `uint64_t`; as
long as the clock has not passed `T`, the link then follows that sequence
(`OnSchedule`), and `rationalize` comes to an end (`rationalize_exits`).

A loop that ends can be cut in two at any time in between
(`rationalize_rationalize`), so a call of `wait_time` before the next call
leaves no trace. `polls_change_nothing` is what this comes to for whole runs.
-/

namespace Mahimahi

/-! ## The opportunities of a trace -/

/-- A position in the trace, and whether it is over. -/
structure Cursor where
  next : Nat
  base : Nat
  finished : Bool
  deriving DecidableEq, Repr

namespace Trace

def time (tr : Trace) (c : Cursor) : Nat := tr.schedule.getD c.next 0 + c.base

/-- The position after an opportunity. The index of the next one is an
`unsigned int`. -/
def advance (tr : Trace) (c : Cursor) : Cursor :=
  let next := u32 (c.next + 1) % tr.schedule.length
  { next := next
    base := if next = 0 ∧ tr.repeats = true then c.base + tr.last else c.base
    finished := c.finished || (decide (next = 0) && !tr.repeats) }

def cursorAt (tr : Trace) (start k : Nat) : Cursor := tr.advance^[k] ⟨0, start, false⟩

/-- No opportunity up to the first one after `T` is beyond `uint64_t`, and
neither is the time that stands for the end of the trace. -/
structure NoWraparound (tr : Trace) (start T : Nat) : Prop where
  clock_lt : T < 2 ^ 64 - 1
  time_lt : ∀ k, (tr.cursorAt start k).finished = false →
    (∀ i < k, tr.time (tr.cursorAt start i) ≤ T) → tr.time (tr.cursorAt start k) < 2 ^ 64

variable {tr : Trace}

theorem cursorAt_succ (start k : Nat) :
    tr.cursorAt start (k + 1) = tr.advance (tr.cursorAt start k) :=
  Function.iterate_succ_apply' ..

theorem advance_next_lt (c : Cursor) : (tr.advance c).next < tr.schedule.length :=
  Nat.mod_lt _ tr.length_pos

theorem advance_next_lt_u32 (c : Cursor) : (tr.advance c).next < 2 ^ 32 :=
  Nat.lt_of_le_of_lt (Nat.mod_le _ _) (Nat.mod_lt _ (by decide))

/-- A position that the link can be at. -/
def InRange (tr : Trace) (c : Cursor) : Prop := c.next < tr.schedule.length ∧ c.next < 2 ^ 32

theorem inRange_cursorAt (tr : Trace) (start k : Nat) : tr.InRange (tr.cursorAt start k) := by
  cases k with
  | zero => exact ⟨tr.length_pos, Nat.two_pow_pos 32⟩
  | succ k => rw [cursorAt_succ]; exact ⟨advance_next_lt _, advance_next_lt_u32 _⟩

theorem getD_le_last {i : Nat} (hi : i < tr.schedule.length) : tr.schedule.getD i 0 ≤ tr.last := by
  rw [List.getD_eq_getElem _ _ hi, last, List.getLast_eq_getElem]
  rcases Nat.lt_or_ge i (tr.schedule.length - 1) with hlt | hge
  · exact List.pairwise_iff_getElem.mp tr.sorted _ _ hi _ hlt
  · have : i = tr.schedule.length - 1 := by omega
    simp only [this, Nat.le_refl]

theorem advance_cases {c : Cursor} (hc : tr.InRange c) :
    (tr.advance c = ⟨c.next + 1, c.base, c.finished⟩ ∧ c.next + 1 < tr.schedule.length) ∨
      tr.advance c = ⟨0, if tr.repeats = true then c.base + tr.last else c.base,
        c.finished || !tr.repeats⟩ := by
  obtain ⟨hlen, h32⟩ := hc
  by_cases hzero : u32 (c.next + 1) % tr.schedule.length = 0
  · exact .inr (by simp [advance, hzero])
  · have hlt : c.next + 1 < 2 ^ 32 := by
      by_contra hge
      have : c.next + 1 = 2 ^ 32 := by omega
      simp [this, u32] at hzero
    have hnext : c.next + 1 < tr.schedule.length := by
      by_contra hge
      have : c.next + 1 = tr.schedule.length := by omega
      rw [u32_of_lt hlt, this, Nat.mod_self] at hzero
      exact hzero rfl
    refine .inl ⟨?_, hnext⟩
    have hmod : u32 (c.next + 1) % tr.schedule.length = c.next + 1 := by
      rw [u32_of_lt hlt, Nat.mod_eq_of_lt hnext]
    simp [advance, hmod]

theorem base_le_time (tr : Trace) (c : Cursor) : c.base ≤ tr.time c := Nat.le_add_left ..

theorem time_le_advance {c : Cursor} (hc : tr.InRange c) (hrep : (tr.advance c).finished = false) :
    tr.time c ≤ tr.time (tr.advance c) := by
  rcases advance_cases hc with ⟨h, hnext⟩ | h
  · rw [h]
    simp only [time]
    rw [List.getD_eq_getElem _ _ hc.1, List.getD_eq_getElem _ _ hnext]
    have := List.pairwise_iff_getElem.mp tr.sorted c.next (c.next + 1) hc.1 hnext (by omega)
    omega
  · rw [h] at hrep ⊢
    have hlast := getD_le_last hc.1
    cases hr : tr.repeats with
    | false => simp [hr] at hrep
    | true =>
        simp only [time, if_true]
        omega

theorem time_advance_le {c : Cursor} (hc : tr.InRange c) :
    tr.time (tr.advance c) ≤ tr.time c + 2 * tr.last := by
  have hzero := getD_le_last tr.length_pos
  rcases advance_cases hc with ⟨h, hnext⟩ | h
  · have hle := getD_le_last hnext
    rw [h]
    simp only [time] at *
    omega
  · rw [h]
    simp only [time] at *
    split <;> omega

theorem NoWraparound.of_lt {start T : Nat} (hstart : start + tr.last < 2 ^ 64)
    (hT : T + 2 * tr.last < 2 ^ 64) : tr.NoWraparound start T := by
  have hpos : 0 < tr.last := tr.last_pos
  refine ⟨by omega, fun k _ hle => ?_⟩
  cases k with
  | zero =>
      have := getD_le_last tr.length_pos
      simp only [cursorAt, Function.iterate_zero, id_eq, time]
      omega
  | succ k =>
      have hk := hle k (Nat.lt_succ_self k)
      have := time_advance_le (tr.inRange_cursorAt start k)
      rw [cursorAt_succ]
      omega

end Trace

namespace LinkQueue

variable {tr : Trace} {Q : Type}

def cursor (q : LinkQueue tr Q) : Cursor := ⟨q.nextDelivery, q.baseTimestamp, q.finished⟩

/-- The link stands where the trace says, and has burned no opportunity after `T`. -/
def OnSchedule (start T : Nat) (q : LinkQueue tr Q) : Prop :=
  ∃ k, q.cursor = tr.cursorAt start k ∧ ∀ i < k, tr.time (tr.cursorAt start i) ≤ T

theorem onSchedule_initial (tr : Trace) (packetQueue : Q) (start T : Nat) :
    (initial tr packetQueue start).OnSchedule start T :=
  ⟨0, rfl, fun _ h => absurd h (Nat.not_lt_zero _)⟩

variable {start T now : Nat} {q : LinkQueue tr Q}

theorem OnSchedule.inRange (h : q.OnSchedule start T) : tr.InRange q.cursor := by
  obtain ⟨k, hk, -⟩ := h
  rw [hk]
  exact tr.inRange_cursorAt start k

theorem OnSchedule.time_lt (hwrap : tr.NoWraparound start T) (h : q.OnSchedule start T)
    (hrun : q.finished = false) : tr.time q.cursor < 2 ^ 64 := by
  obtain ⟨k, hk, hle⟩ := h
  rw [hk]
  exact hwrap.time_lt k (by rw [← hk]; exact hrun) hle

theorem nextDeliveryTime_of_finished (h : q.finished = true) : q.nextDeliveryTime = 2 ^ 64 - 1 :=
  if_pos h

theorem OnSchedule.nextDeliveryTime_eq (hwrap : tr.NoWraparound start T)
    (h : q.OnSchedule start T) (hrun : q.finished = false) :
    q.nextDeliveryTime = tr.time q.cursor := by
  have hlt := h.time_lt hwrap hrun
  simp only [Trace.time, cursor, List.getD_eq_getElem _ _ q.next_lt] at hlt ⊢
  simp only [nextDeliveryTime, hrun, Bool.false_eq_true, if_false, List.get_eq_getElem]
  exact u64_of_lt hlt

/-- An opportunity that falls due by the clock is one of the trace. -/
theorem OnSchedule.running (hwrap : tr.NoWraparound start T) (hnow : now ≤ T)
    (hdue : q.nextDeliveryTime ≤ now) : q.finished = false := by
  cases hf : q.finished with
  | false => rfl
  | true =>
      have := hwrap.clock_lt
      rw [nextDeliveryTime_of_finished hf] at hdue
      omega

theorem OnSchedule.use (hwrap : tr.NoWraparound start T) (h : q.OnSchedule start T)
    (hnow : now ≤ T) (hdue : q.nextDeliveryTime ≤ now) :
    q.useADeliveryOpportunity.cursor = tr.advance q.cursor ∧
      q.useADeliveryOpportunity.OnSchedule start T := by
  have hrun := running hwrap hnow hdue
  have htime := h.nextDeliveryTime_eq hwrap hrun
  obtain ⟨k, hk, hle⟩ := h
  have hle' : ∀ i < k + 1, tr.time (tr.cursorAt start i) ≤ T := by
    intro i hi
    rcases Nat.lt_succ_iff_lt_or_eq.mp hi with hi | rfl
    · exact hle i hi
    · rw [← hk, ← htime]
      omega
  have hbase : q.useADeliveryOpportunity.baseTimestamp = (tr.advance q.cursor).base := by
    by_cases hround : u32 (q.nextDelivery + 1) % tr.schedule.length = 0 ∧ tr.repeats = true
    · have hnext := hwrap.time_lt (k + 1) (by
          rw [Trace.cursorAt_succ, ← hk]
          simp [Trace.advance, cursor, hrun, hround.2]) hle'
      have hle := tr.base_le_time (tr.cursorAt start (k + 1))
      rw [Trace.cursorAt_succ, ← hk] at hle hnext
      have hsum : (tr.advance q.cursor).base = q.baseTimestamp + tr.last := if_pos hround
      rw [hsum] at hle ⊢
      have hu : u64 (q.baseTimestamp + tr.last) = q.baseTimestamp + tr.last := u64_of_lt (by omega)
      exact (if_pos hround).trans hu
    · exact (if_neg hround).trans (if_neg hround).symm
  have hcursor : q.useADeliveryOpportunity.cursor = tr.advance q.cursor := by
    rw [cursor, hbase]
    rfl
  exact ⟨hcursor, k + 1, by rw [hcursor, hk, Trace.cursorAt_succ], hle'⟩

/-! ## rationalize comes to an end -/

section

variable [AbstractPacketQueue Q] {world : Nat → Env}

theorem fetch_cursor {q₁ : LinkQueue tr Q} (h : fetch world q = .ok (some q₁)) :
    q₁.cursor = q.cursor := by
  obtain ⟨_, _, _, _, rfl⟩ := fetch_frame h
  rfl

omit [AbstractPacketQueue Q] in
theorem send_cursor (t amount : Nat) : (q.send t amount).cursor = q.cursor := by
  simp only [send]
  split <;> rfl

theorem deliver_cursor {q' : LinkQueue tr Q} (h : deliver world q = .ok q') :
    q'.cursor = q.useADeliveryOpportunity.cursor := by
  obtain ⟨-, hc, -⟩ := deliver_invariant h
    (I := fun _ s => s.cursor = q.useADeliveryOpportunity.cursor) rfl
    (fun _ s s₁ hI _ hf _ => (send_cursor ..).trans ((fetch_cursor hf).trans hI))
  exact hc

theorem OnSchedule.deliver {q' : LinkQueue tr Q} (hwrap : tr.NoWraparound start T)
    (h : q.OnSchedule start T) (hnow : now ≤ T) (hdue : q.nextDeliveryTime ≤ now)
    (hd : deliver world q = .ok q') :
    q'.cursor = tr.advance q.cursor ∧ q'.OnSchedule start T := by
  obtain ⟨hc, k, hk, hle⟩ := h.use hwrap hnow hdue
  have hcursor := deliver_cursor hd
  exact ⟨hcursor.trans hc, k, hcursor.trans hk, hle⟩

/-- The next opportunity is not before the one that has been used. -/
theorem OnSchedule.next_le {q' : LinkQueue tr Q} (hwrap : tr.NoWraparound start T)
    (h : q.OnSchedule start T) (hnow : now ≤ T) (hdue : q.nextDeliveryTime ≤ now)
    (hd : LinkQueue.deliver world q = .ok q') : q.nextDeliveryTime ≤ q'.nextDeliveryTime := by
  obtain ⟨hcursor, h'⟩ := h.deliver hwrap hnow hdue hd
  cases hf : q'.finished with
  | true =>
      have := hwrap.clock_lt
      rw [nextDeliveryTime_of_finished hf]
      omega
  | false =>
      rw [h.nextDeliveryTime_eq hwrap (OnSchedule.running hwrap hnow hdue),
        h'.nextDeliveryTime_eq hwrap hf, hcursor]
      exact Trace.time_le_advance h.inRange ((congrArg Cursor.finished hcursor).symm.trans hf)

/-- How many opportunities may still fall due by `now`. -/
def turnsLeft (now : Nat) (q : LinkQueue tr Q) : Nat :=
  if q.finished then 0
  else tr.schedule.length * (now + 1 - q.baseTimestamp) + (tr.schedule.length - q.nextDelivery)

omit [AbstractPacketQueue Q] in
theorem turnsLeft_lt (now : Nat) (q : LinkQueue tr Q) : q.turnsLeft now < maxTurns tr now := by
  have hmul : tr.schedule.length * (now + 1 - q.baseTimestamp) ≤ tr.schedule.length * (now + 1) :=
    Nat.mul_le_mul_left _ (by omega)
  have hexp : tr.schedule.length * (now + 2)
      = tr.schedule.length * (now + 1) + tr.schedule.length := Nat.mul_succ ..
  unfold turnsLeft maxTurns
  split <;> omega

theorem turnsLeft_deliver {q' : LinkQueue tr Q} (hwrap : tr.NoWraparound start T)
    (h : q.OnSchedule start T) (hnow : now ≤ T) (hdue : q.nextDeliveryTime ≤ now)
    (hd : LinkQueue.deliver world q = .ok q') : q'.turnsLeft now < q.turnsLeft now := by
  have hrun := OnSchedule.running hwrap hnow hdue
  have hbase : q.baseTimestamp ≤ now := by
    have := tr.base_le_time q.cursor
    rw [← h.nextDeliveryTime_eq hwrap hrun] at this
    exact Nat.le_trans this hdue
  have hcursor := (h.deliver hwrap hnow hdue hd).1
  have hnext : q'.nextDelivery = (tr.advance q.cursor).next := congrArg Cursor.next hcursor
  have hbase' : q'.baseTimestamp = (tr.advance q.cursor).base := congrArg Cursor.base hcursor
  have hfin : q'.finished = (tr.advance q.cursor).finished := congrArg Cursor.finished hcursor
  have hlt := q.next_lt
  have hlast : 0 < tr.last := tr.last_pos
  unfold turnsLeft
  rw [hnext, hbase', hfin, hrun]
  rcases Trace.advance_cases h.inRange with ⟨ha, hn⟩ | ha
  · have hn : q.nextDelivery + 1 < tr.schedule.length := hn
    rw [ha]
    simp only [cursor, hrun, Bool.false_eq_true, if_false]
    omega
  · rw [ha]
    cases hr : tr.repeats with
    | false =>
        simp only [Bool.not_false, Bool.or_true, if_true, Bool.false_eq_true, if_false]
        omega
    | true =>
        simp only [cursor, hrun, if_true, Bool.not_true, Bool.or_false, Bool.false_eq_true, if_false]
        have hmul : tr.schedule.length * (now + 1 - (q.baseTimestamp + tr.last))
            + tr.schedule.length ≤ tr.schedule.length * (now + 1 - q.baseTimestamp) := by
          rw [← Nat.mul_succ]
          exact Nat.mul_le_mul_left _ (by omega)
        omega

theorem rationalize_exits (world : Nat → Env) (hwrap : tr.NoWraparound start T)
    (h : q.OnSchedule start T) (hnow : now ≤ T) :
    Exits (whileDo (isDue now) (LinkQueue.deliver world)) q (rationalize world now q) := by
  refine exits_loop (I := OnSchedule start T) (μ := turnsLeft now) ?_ h (turnsLeft_lt now q)
  intro s s' hI hb
  obtain ⟨hdue, hb⟩ := whileDo_again.mp hb
  have hdue : s.nextDeliveryTime ≤ now := of_decide_eq_true hdue
  exact ⟨(hI.deliver hwrap hnow hdue hb).2, turnsLeft_deliver hwrap hI hnow hdue hb⟩

theorem OnSchedule.rationalize {q' : LinkQueue tr Q} (hwrap : tr.NoWraparound start T)
    (h : q.OnSchedule start T) (hnow : now ≤ T) (hr : q.rationalize world now = .ok q') :
    q'.OnSchedule start T :=
  rationalize_invariant hr h fun _ _ hI hdue hd => (hI.deliver hwrap hnow hdue hd).2

/-! ## Polling -/

/-- Emulating the link up to `t₁` first changes nothing about `t₂`. -/
theorem rationalize_rationalize {t₁ t₂ : Nat} (hwrap : tr.NoWraparound start T)
    (h : q.OnSchedule start T) (hle : t₁ ≤ t₂) (hT : t₂ ≤ T) :
    (do let q₁ ← q.rationalize world t₁; q₁.rationalize world t₂) = q.rationalize world t₂ := by
  have h₁ := rationalize_exits world hwrap h (Nat.le_trans hle hT)
  have h₂ := rationalize_exits world hwrap h hT
  have hweak : ∀ s : LinkQueue tr Q, isDue t₁ s = true → isDue t₂ s = true := fun s hs => by
    simp only [isDue, decide_eq_true_eq] at hs ⊢
    omega
  have hsplit := h₁.while_split hweak
  cases hr : q.rationalize world t₁ with
  | error f => exact (hsplit.1 f hr).unique h₂
  | ok q₁ =>
      have hq₁ := h.rationalize hwrap (Nat.le_trans hle hT) hr
      exact (hsplit.2 q₁ hr _ (rationalize_exits world hwrap hq₁ hT)).unique h₂

theorem accept_cursor {q' : LinkQueue tr Q} {contents : Bytes} {env : Env}
    (h : q.accept now contents env = .ok q') : q'.cursor = q.cursor := by
  obtain ⟨_, _, _, _, -, -, -, -, rfl⟩ := accept_eq_ok h
  rfl

theorem OnSchedule.readPacket {q' : LinkQueue tr Q} {contents : Bytes} {env : Env}
    (hwrap : tr.NoWraparound start T) (h : q.OnSchedule start T) (hnow : now ≤ T)
    (hr : q.readPacket world now contents env = .ok q') : q'.OnSchedule start T := by
  obtain ⟨-, q₁, hr, ha⟩ := readPacket_eq_ok.mp hr
  obtain ⟨k, hk, hle⟩ := h.rationalize hwrap hnow hr
  exact ⟨k, (accept_cursor ha).trans hk, hle⟩

end

/-! ### Disciplines that do not look at the world -/

/-- What a method reads of the world makes no difference to it. -/
class WorldFree (Q : Type) [AbstractPacketQueue Q] : Prop where
  enqueue_eq : ∀ (env env' : Env) (q : Q) (p : QueuedPacket),
    AbstractPacketQueue.enqueue env q p = AbstractPacketQueue.enqueue env' q p
  dequeue_eq : ∀ (env env' : Env) (q : Q),
    AbstractPacketQueue.dequeue env q = AbstractPacketQueue.dequeue env' q

instance (W : Arith) : WorldFree (InfinitePacketQueue W) := ⟨fun _ _ _ _ => rfl, fun _ _ _ => rfl⟩

instance (W : Arith) : WorldFree (DropTailPacketQueue W) := ⟨fun _ _ _ _ => rfl, fun _ _ _ => rfl⟩

section

variable [AbstractPacketQueue Q] [WorldFree Q]

theorem fetch_worldFree (world world' : Nat → Env) (q : LinkQueue tr Q) :
    fetch world q = fetch world' q := by
  simp only [fetch, WorldFree.dequeue_eq (world q.asked.length) (world' q.asked.length)]

theorem deliver_worldFree (world world' : Nat → Env) :
    (deliver world : LinkQueue tr Q → _) = deliver world' := by
  have hturn : ∀ t, (sendTurn t world : Nat × LinkQueue tr Q → _) = sendTurn t world' := by
    intro t
    funext ⟨bytesLeft, q⟩
    simp only [sendTurn, fetch_worldFree world world']
  funext q
  simp only [deliver, hturn]

theorem rationalize_worldFree (world world' : Nat → Env) (now : Nat) (q : LinkQueue tr Q) :
    q.rationalize world now = q.rationalize world' now := by
  simp only [rationalize, deliver_worldFree world world']

theorem accept_worldFree (env env' : Env) (now : Nat) (contents : Bytes) (q : LinkQueue tr Q) :
    q.accept now contents env = q.accept now contents env' := by
  simp only [accept, WorldFree.enqueue_eq env env']

theorem readPacket_worldFree (world world' : Nat → Env) (env env' : Env) (now : Nat)
    (contents : Bytes) (q : LinkQueue tr Q) :
    q.readPacket world now contents env = q.readPacket world' now contents env' := by
  simp only [readPacket, rationalize_worldFree world world', accept_worldFree env env']

end

/-! ### Whole runs -/

end LinkQueue

/-- The clock readings of a run. -/
def clockReadings : List LinkCall → List Nat
  | [] => []
  | .readPacket now _ _ :: calls => now :: clockReadings calls
  | .waitTime now :: calls => now :: clockReadings calls
  | .writePackets :: calls => clockReadings calls

/-- The packets that a run reads, with their times. -/
def arrivals : List LinkCall → List (Nat × Bytes)
  | [] => []
  | .readPacket now contents _ :: calls => (now, contents) :: arrivals calls
  | .waitTime _ :: calls => arrivals calls
  | .writePackets :: calls => arrivals calls

/-- A run made of `read_packet` and `wait_time` calls, at times that do not go
back and that `T` does not precede. -/
structure PolledUntil (T : Nat) (calls : List LinkCall) : Prop where
  noWrites : LinkCall.writePackets ∉ calls
  ordered : (clockReadings calls ++ [T]).Pairwise (· ≤ ·)

namespace PolledUntil

variable {T now : Nat} {contents : Bytes} {env : Env} {calls : List LinkCall}

theorem of_readPacket (h : PolledUntil T (.readPacket now contents env :: calls)) :
    PolledUntil T calls ∧ now ≤ T :=
  have ho := List.pairwise_cons.mp h.ordered
  ⟨⟨fun hmem => h.noWrites (List.mem_cons_of_mem _ hmem), ho.2⟩, ho.1 T (by simp)⟩

theorem of_waitTime (h : PolledUntil T (.waitTime now :: calls)) :
    PolledUntil T calls ∧ ∀ t ∈ clockReadings calls ++ [T], now ≤ t :=
  have ho := List.pairwise_cons.mp h.ordered
  ⟨⟨fun hmem => h.noWrites (List.mem_cons_of_mem _ hmem), ho.2⟩, ho.1⟩

end PolledUntil

/-- The run that polls only once, after all its arrivals. -/
def polledOnce (T : Nat) (packets : List (Nat × Bytes)) : List LinkCall :=
  packets.map (fun a => .readPacket a.1 a.2 ⟨0, 0, 0⟩) ++ [.waitTime T]

theorem mem_clockReadings_of_arrivals {calls : List LinkCall} {a : Nat × Bytes}
    (h : a ∈ arrivals calls) : a.1 ∈ clockReadings calls := by
  induction calls with
  | nil => cases h
  | cons c calls ih =>
      cases c with
      | readPacket now contents env =>
          rcases List.mem_cons.mp h with rfl | h
          · exact List.mem_cons_self ..
          · exact List.mem_cons_of_mem _ (ih h)
      | waitTime now => exact List.mem_cons_of_mem _ (ih h)
      | writePackets => exact ih h

namespace LinkQueue

variable {tr : Trace} {Q : Type} [AbstractPacketQueue Q] {start T now : Nat} {q : LinkQueue tr Q}
  {world : Nat → Env}

/-- A call that emulates the link up to `t` makes an earlier poll superfluous. -/
theorem call_after_rationalize (world : Nat → Env) {t : Nat} {c : LinkCall}
    (hwrap : tr.NoWraparound start T) (h : q.OnSchedule start T) (hle : now ≤ t) (hT : t ≤ T)
    (hc : c = .waitTime t ∨ ∃ contents env, c = .readPacket t contents env)
    (r : List Bytes × LinkQueue tr Q) :
    (∃ q₁, q.rationalize world now = .ok q₁ ∧ q₁.call world c = .ok r) ↔ q.call world c = .ok r := by
  have hsplit : ∀ q₂ : LinkQueue tr Q, (∃ q₁, q.rationalize world now = .ok q₁ ∧
      q₁.rationalize world t = .ok q₂) ↔ q.rationalize world t = .ok q₂ := fun q₂ => by
    rw [← rationalize_rationalize hwrap h hle hT, bind_eq_ok]
  rcases hc with rfl | ⟨contents, env, rfl⟩
  · simp only [call, waitTime, bind_eq_ok, pure_eq_ok, Except.ok.injEq, Prod.exists, Prod.mk.injEq]
    constructor
    · rintro ⟨q₁, h₁, n, q₂, ⟨q₃, h₂, rfl, rfl⟩, rfl⟩
      exact ⟨_, q₃, ⟨q₃, (hsplit q₃).mp ⟨q₁, h₁, h₂⟩, rfl, rfl⟩, rfl⟩
    · rintro ⟨n, q₂, ⟨q₃, h₂, rfl, rfl⟩, rfl⟩
      obtain ⟨q₁, h₁, h₂⟩ := (hsplit q₃).mpr h₂
      exact ⟨q₁, h₁, _, q₃, ⟨q₃, h₂, rfl, rfl⟩, rfl⟩
  · simp only [call, bind_eq_ok, pure_eq_ok, Except.ok.injEq, readPacket_eq_ok]
    constructor
    · rintro ⟨q₁, h₁, q₂, ⟨hsize, q₃, h₂, ha⟩, rfl⟩
      exact ⟨q₂, ⟨hsize, q₃, (hsplit q₃).mp ⟨q₁, h₁, h₂⟩, ha⟩, rfl⟩
    · rintro ⟨q₂, ⟨hsize, q₃, h₂, ha⟩, rfl⟩
      obtain ⟨q₁, h₁, h₂⟩ := (hsplit q₃).mpr h₂
      exact ⟨q₁, h₁, q₂, ⟨hsize, q₃, h₂, ha⟩, rfl⟩

theorem polledOnce_after_rationalize (world : Nat → Env) {packets : List (Nat × Bytes)}
    (hwrap : tr.NoWraparound start T) (h : q.OnSchedule start T) {U : Nat} (hU : U ≤ T)
    (hle : now ≤ U) (hpackets : ∀ a ∈ packets, now ≤ a.1 ∧ a.1 ≤ T)
    (out : List Bytes × LinkQueue tr Q) :
    (∃ q₁, q.rationalize world now = .ok q₁ ∧ run world (polledOnce U packets) q₁ = .ok out) ↔
      run world (polledOnce U packets) q = .ok out := by
  obtain ⟨c, calls, hrun, t, hnow, hT, hc⟩ : ∃ c calls, polledOnce U packets = c :: calls ∧
      ∃ t, now ≤ t ∧ t ≤ T ∧ (c = .waitTime t ∨ ∃ contents env, c = .readPacket t contents env) := by
    cases packets with
    | nil => exact ⟨_, _, rfl, U, hle, hU, .inl rfl⟩
    | cons a packets =>
        obtain ⟨h₁, h₂⟩ := hpackets a (List.mem_cons_self ..)
        exact ⟨_, _, rfl, a.1, h₁, h₂, .inr ⟨a.2, _, rfl⟩⟩
  have hcall := call_after_rationalize world hwrap h hnow hT hc
  simp only [hrun, run_cons_eq_ok]
  constructor
  · rintro ⟨q₁, h₁, r, hr, rest⟩
    exact ⟨r, (hcall r).mp ⟨q₁, h₁, hr⟩, rest⟩
  · rintro ⟨r, hr, rest⟩
    obtain ⟨q₁, h₁, hr⟩ := (hcall r).mpr hr
    exact ⟨q₁, h₁, r, hr, rest⟩

/-- Every run of arrivals and polls comes to what the run that polls once comes to. -/
theorem run_eq_polledOnce [WorldFree Q] (world' : Nat → Env) {U : Nat} (hU : U ≤ T)
    (hwrap : tr.NoWraparound start T) (out : List Bytes × LinkQueue tr Q) :
    ∀ (calls : List LinkCall) {q : LinkQueue tr Q}, q.OnSchedule start T → PolledUntil U calls →
    (run world (calls ++ [.waitTime U]) q = .ok out ↔
      run world' (polledOnce U (arrivals calls)) q = .ok out)
  | [], q, _, _ => by
      simp only [arrivals, polledOnce, List.map_nil, List.nil_append, call, waitTime,
        rationalize_worldFree world world', run]
  | .readPacket now contents env :: calls, q, h, hcalls => by
      obtain ⟨hcalls', hnow⟩ := hcalls.of_readPacket
      simp only [arrivals, polledOnce, List.map_cons, List.cons_append, run_cons_eq_ok, call,
        readPacket_worldFree world world' env ⟨0, 0, 0⟩]
      refine exists_congr fun r => and_congr_right fun hr => ?_
      simp only [bind_eq_ok, pure_eq_ok, Except.ok.injEq] at hr
      obtain ⟨q₁, hr, rfl⟩ := hr
      have hq₁ := h.readPacket hwrap (Nat.le_trans hnow hU) hr
      refine exists_congr fun r' => and_congr_left fun _ => ?_
      exact run_eq_polledOnce world' hU hwrap r' calls hq₁ hcalls'
  | .waitTime now :: calls, q, h, hcalls => by
      obtain ⟨hcalls', hle⟩ := hcalls.of_waitTime
      have hpackets : ∀ a ∈ arrivals calls, now ≤ a.1 ∧ a.1 ≤ T := fun a ha => by
        have hmem := mem_clockReadings_of_arrivals ha
        have hlast := (List.pairwise_append.mp hcalls'.ordered).2.2 a.1 hmem U (by simp)
        exact ⟨hle a.1 (List.mem_append_left _ hmem), Nat.le_trans hlast hU⟩
      have hnow : now ≤ U := hle U (by simp)
      rw [arrivals, ← polledOnce_after_rationalize world' hwrap h hU hnow hpackets]
      simp only [List.cons_append, run_cons_eq_ok, call, waitTime, bind_eq_ok, pure_eq_ok,
        Except.ok.injEq]
      constructor
      · rintro ⟨r, ⟨w, ⟨q₁, hr, rfl⟩, rfl⟩, r', hrest, rfl⟩
        have hq₁ := h.rationalize hwrap (Nat.le_trans hnow hU) hr
        rw [rationalize_worldFree world world'] at hr
        exact ⟨q₁, hr, (run_eq_polledOnce world' hU hwrap _ calls hq₁ hcalls').mp hrest⟩
      · rintro ⟨q₁, hr, hrest⟩
        have hq₁ := h.rationalize hwrap (Nat.le_trans hnow hU) hr
        rw [rationalize_worldFree world' world] at hr
        exact ⟨([], q₁), ⟨(_, q₁), ⟨q₁, hr, rfl⟩, rfl⟩, out,
          (run_eq_polledOnce world' hU hwrap _ calls hq₁ hcalls').mpr hrest, rfl⟩
  | .writePackets :: calls, _, _, hcalls => absurd (List.mem_cons_self ..) hcalls.noWrites

theorem OnSchedule.run {out : List Bytes × LinkQueue tr Q} {U : Nat} (hU : U ≤ T)
    (hwrap : tr.NoWraparound start T) : ∀ {calls : List LinkCall} {q : LinkQueue tr Q},
    q.OnSchedule start T → PolledUntil U calls → run world calls q = .ok out →
    out.2.OnSchedule start T
  | [], q, h, _, hrun => by
      cases hrun
      exact h
  | .readPacket now contents env :: calls, q, h, hcalls, hrun => by
      obtain ⟨hcalls', hnow⟩ := hcalls.of_readPacket
      obtain ⟨r, hc, r', hrest, rfl⟩ := run_cons_eq_ok.mp hrun
      simp only [call, bind_eq_ok, pure_eq_ok, Except.ok.injEq] at hc
      obtain ⟨q₁, hr, rfl⟩ := hc
      exact OnSchedule.run hU hwrap (h.readPacket hwrap (Nat.le_trans hnow hU) hr) hcalls' hrest
  | .waitTime now :: calls, q, h, hcalls, hrun => by
      obtain ⟨hcalls', hle⟩ := hcalls.of_waitTime
      obtain ⟨r, hc, r', hrest, rfl⟩ := run_cons_eq_ok.mp hrun
      simp only [call, waitTime, bind_eq_ok, pure_eq_ok, Except.ok.injEq] at hc
      obtain ⟨w, ⟨q₁, hr, rfl⟩, rfl⟩ := hc
      have hnow : now ≤ U := hle U (by simp)
      exact OnSchedule.run hU hwrap (h.rationalize hwrap (Nat.le_trans hnow hU) hr) hcalls' hrest
  | .writePackets :: calls, _, _, hcalls, _ => absurd (List.mem_cons_self ..) hcalls.noWrites

/-- Two runs of a link with the same arrivals come to the same outputs and the
same link at `T`, whatever their polls; and a link that the first can reach
may be emulated in two steps as well as in one. -/
structure SameEmulation (tr : Trace) (packetQueue : Q) (start T : Nat) (world world' : Nat → Env)
    (calls calls' : List LinkCall) : Prop where
  outcome : ∀ out, run world (calls ++ [.waitTime T]) (initial tr packetQueue start) = .ok out ↔
    run world' (calls' ++ [.waitTime T]) (initial tr packetQueue start) = .ok out
  split : ∀ written q, run world calls (initial tr packetQueue start) = .ok (written, q) →
    ∀ t₁ t₂, t₁ ≤ t₂ → t₂ ≤ T →
    (do let q₁ ← q.rationalize world t₁; q₁.rationalize world t₂) = q.rationalize world t₂

theorem sameEmulation_of_worldFree [WorldFree Q] (packetQueue : Q)
    (hwrap : tr.NoWraparound start T) {world world' : Nat → Env} {calls calls' : List LinkCall}
    (h : PolledUntil T calls) (h' : PolledUntil T calls') (harr : arrivals calls = arrivals calls') :
    SameEmulation tr packetQueue start T world world' calls calls' where
  outcome out := by
    have hstart := onSchedule_initial tr packetQueue start T
    rw [run_eq_polledOnce world (Nat.le_refl T) hwrap out calls hstart h,
      run_eq_polledOnce world (Nat.le_refl T) hwrap out calls' hstart h', harr]
  split written q hrun t₁ t₂ hle hT :=
    rationalize_rationalize hwrap
      ((onSchedule_initial tr packetQueue start T).run (Nat.le_refl T) hwrap h hrun) hle hT

/-- With an infinite or a drop-tail queue, polling changes nothing. -/
theorem polls_change_nothing (W : Arith) (l : Limits) (tr : Trace) (start T : Nat)
    (world world' : Nat → Env) (calls calls' : List LinkCall) (hwrap : tr.NoWraparound start T)
    (h : PolledUntil T calls) (h' : PolledUntil T calls') (harr : arrivals calls = arrivals calls') :
    SameEmulation tr (InfinitePacketQueue.initial W) start T world world' calls calls' ∧
      SameEmulation tr (DropTailPacketQueue.initial W l) start T world world' calls calls' :=
  ⟨sameEmulation_of_worldFree _ hwrap h h' harr, sameEmulation_of_worldFree _ hwrap h h' harr⟩

end LinkQueue

/-- One opportunity every millisecond, over and over. -/
def everyMs : Trace := ⟨[1], true, by simp, by simp, by decide⟩

/-- A poll between an arrival and the end. -/
theorem LinkQueue.polls_change_nothing_everyMs :
    SameEmulation everyMs (InfinitePacketQueue.initial .machine) 0 5 (fun _ => ⟨0, 0, 0⟩)
        (fun _ => ⟨0, 0, 0⟩) [.readPacket 0 [1, 2, 3] ⟨0, 0, 0⟩, .waitTime 3]
        [.readPacket 0 [1, 2, 3] ⟨0, 0, 0⟩] ∧
      SameEmulation everyMs (DropTailPacketQueue.initial .machine ⟨10, 0⟩) 0 5 (fun _ => ⟨0, 0, 0⟩)
        (fun _ => ⟨0, 0, 0⟩) [.readPacket 0 [1, 2, 3] ⟨0, 0, 0⟩, .waitTime 3]
        [.readPacket 0 [1, 2, 3] ⟨0, 0, 0⟩] :=
  polls_change_nothing .machine ⟨10, 0⟩ everyMs 0 5 _ _ _ _ (.of_lt (by decide) (by decide))
    ⟨by simp, by decide⟩ ⟨by simp, by decide⟩ rfl

end Mahimahi
