import Mahimahi.Loop
import Mahimahi.PacketQueue

/-!
# The CoDel queue

`CODELPacketQueue` decides what to drop when a packet is dequeued.
`dodequeue` takes one packet off the queue and says whether it may be
dropped; `dequeue` calls it once, and then again for as long as packets are
to be dropped. `dequeueTrace` is `dequeue` with the results of all its
`dodequeue` calls kept, in order.

The inner calls of the source declare a second `r`, which shadows the one
that is returned: the packet that leaves is the *first* one taken off, and
the later ones are lost. Everything about that follows from two facts,
`dequeueTrace_spec` (the results are the front of the queue, and there is
more than one of them exactly in the states `discards` describes) and
`dodequeue_spec` (what a single call does).

`controlStep` is the value of `(uint64_t)( interval_ / sqrt( count ) )`,
which the source computes in floating point; no result depends on it.
-/

namespace Mahimahi

/-- `dodequeue_result`. -/
structure DodequeueResult where
  p : QueuedPacket
  okToDrop : Bool
  deriving DecidableEq, Repr

/-- `CODELPacketQueue`. -/
structure CODELPacketQueue (W : Arith) where
  base : DroppingPacketQueue W
  target : Nat
  interval : Nat
  controlStep : Nat → Nat
  firstAboveTime : Nat
  dropNext : Nat
  count : Nat
  lastcount : Nat
  dropping : Bool

namespace CODELPacketQueue

variable {W : Arith}

/-- The constructor, for the arguments it does not reject. -/
def initial (W : Arith) (l : Limits) (target interval : Nat) (controlStep : Nat → Nat) :
    CODELPacketQueue W where
  base := .initial W l
  target := target
  interval := interval
  controlStep := controlStep
  firstAboveTime := 0
  dropNext := 0
  count := 0
  lastcount := 0
  dropping := false

def internalQueue (q : CODELPacketQueue W) : List QueuedPacket := q.base.internalQueue

def dodequeue (now : Nat) (q : CODELPacketQueue W) :
    Except Fault (DodequeueResult × CODELPacketQueue W) := do
  let (p, base) ← q.base.dequeue
  if base.empty then
    return (⟨p, false⟩, { q with base := base, firstAboveTime := 0 })
  let sizeBytes ← base.sizeBytes
  let sojournTime := sub64 now p.arrivalTime
  if sojournTime < q.target ∨ sizeBytes ≤ packetSize then
    return (⟨p, false⟩, { q with base := base, firstAboveTime := 0 })
  else if q.firstAboveTime = 0 then
    return (⟨p, false⟩, { q with base := base, firstAboveTime := u64 (now + q.interval) })
  else
    return (⟨p, decide (q.firstAboveTime ≤ now)⟩, { q with base := base })

def controlLaw (q : CODELPacketQueue W) (t count : Nat) : Nat := u64 (t + q.controlStep count)

/-- `now >= drop_next_ && dropping_`. -/
def stillDropping (now : Nat) : CODELPacketQueue W × List DodequeueResult → Bool
  | (q, _) => decide (q.dropNext ≤ now) && q.dropping

/-- One turn of the drop loop; the result of its `dodequeue` call goes to the
back of the list. -/
def dropTurn (now : Nat) : CODELPacketQueue W × List DodequeueResult →
    Except Fault (CODELPacketQueue W × List DodequeueResult)
  | (q, rs) => do
      let (r, q) ← q.dodequeue now
      let q := { q with count := u32 (q.count + 1) }
      if r.okToDrop then
        return ({ q with dropNext := q.controlLaw q.dropNext q.count }, rs ++ [r])
      else
        return ({ q with dropping := false }, rs ++ [r])

def dropLoop (now : Nat) (q : CODELPacketQueue W) :
    Except Fault (CODELPacketQueue W × List DodequeueResult) :=
  loop .diverges (whileDo (stillDropping now) (dropTurn now)) (q.internalQueue.length + 1) (q, [])

/-- The state that `dequeue` sets up when it goes into dropping. -/
def enterDropping (now : Nat) (q : CODELPacketQueue W) : CODELPacketQueue W :=
  let delta := sub32 q.count q.lastcount
  let count := if 1 < delta ∧ sub64 now q.dropNext < u32 (16 * q.interval) then delta else 1
  { q with
    dropping := true
    count := count
    dropNext := q.controlLaw now count
    lastcount := count }

/-- `dequeue`, returning the outer `r`, the inner ones in order, and the queue. -/
def dequeueTrace (now : Nat) (q : CODELPacketQueue W) :
    Except Fault (DodequeueResult × List DodequeueResult × CODELPacketQueue W) := do
  let (r, q) ← q.dodequeue now
  if q.dropping then
    let q := if r.okToDrop then q else { q with dropping := false }
    let (q, rs) ← q.dropLoop now
    return (r, rs, q)
  else if r.okToDrop then
    let (r', q) ← q.dodequeue now
    return (r, [r'], q.enterDropping now)
  else
    return (r, [], q)

/-- What `dequeue` returns is the outer `r`. -/
def dequeue (now : Nat) (q : CODELPacketQueue W) :
    Except Fault (QueuedPacket × CODELPacketQueue W) := do
  let (r, _, q') ← q.dequeueTrace now
  return (r.p, q')

/-- The results of the `dodequeue` calls that `dequeue` makes, in order. -/
def dodequeues (now : Nat) (q : CODELPacketQueue W) : Except Fault (List DodequeueResult) := do
  let (r, rs, _) ← q.dequeueTrace now
  return r :: rs

def enqueue (q : CODELPacketQueue W) (p : QueuedPacket) : Except Fault (CODELPacketQueue W) := do
  let base := if ← q.base.goodWithPacket p then q.base.accept p else q.base
  base.assertGood
  return { q with base := base }

instance : AbstractPacketQueue (CODELPacketQueue W) where
  enqueue _ q p := q.enqueue p
  dequeue env q := q.dequeue env.now
  empty q := q.base.empty
  sizeBytes q := q.base.sizeBytes
  sizePackets q := q.base.sizePackets

/-! ## One dodequeue call -/

/-- The packet at the head may be dropped: it is not the last one, it and the
queue behind it have been over the target for an interval. -/
def headOkToDrop (now : Nat) (q : CODELPacketQueue W) : Bool :=
  match q.internalQueue with
  | [] => false
  | p :: ps =>
      decide (ps ≠ []) && decide (q.target ≤ sub64 now p.arrivalTime)
        && decide (packetSize < bytesOf ps)
        && decide (q.firstAboveTime ≠ 0) && decide (q.firstAboveTime ≤ now)

/-- What a `dodequeue` call leaves alone. -/
structure SameControl (q q' : CODELPacketQueue W) : Prop where
  dropping : q'.dropping = q.dropping
  dropNext : q'.dropNext = q.dropNext

theorem dodequeue_spec (now : Nat) {q : CODELPacketQueue W} {p : QueuedPacket}
    {ps : List QueuedPacket} (h : q.internalQueue = p :: ps) (hq : q.base.Valid) :
    ∃ q' : CODELPacketQueue W, q.dodequeue now = .ok (⟨p, q.headOkToDrop now⟩, q') ∧
      q'.internalQueue = ps ∧ q'.base.Valid ∧ SameControl q q' := by
  obtain ⟨base, hd, hps, -, hv⟩ := DroppingPacketQueue.dequeue_valid h hq
  cases hempty : base.empty with
  | true =>
      have hnil : ps = [] := by rw [← hps]; exact DroppingPacketQueue.empty_eq_true.mp hempty
      refine ⟨{ q with base := base, firstAboveTime := 0 }, ?_, hps, hv, rfl, rfl⟩
      simp [dodequeue, hd, hps, headOkToDrop, h, hnil]
  | false =>
      have hne : ps ≠ [] := by rw [← hps]; exact DroppingPacketQueue.empty_eq_false.mp hempty
      have hsize : base.sizeBytes = .ok (bytesOf ps) := by
        rw [DroppingPacketQueue.sizeBytes_of_fits hv.fits, hps]
      have hread : q.headOkToDrop now = (decide (q.target ≤ sub64 now p.arrivalTime)
          && decide (packetSize < bytesOf ps)
          && decide (q.firstAboveTime ≠ 0) && decide (q.firstAboveTime ≤ now)) := by
        simp only [headOkToDrop, h, decide_eq_true hne, Bool.true_and]
      rw [hread]
      simp only [dodequeue, hd, ok_bind, hempty, hsize, Bool.false_eq_true, if_false, pure_eq_ok]
      -- from here on the sojourn time is just a number
      generalize sub64 now p.arrivalTime = sojournTime
      by_cases hlow : sojournTime < q.target ∨ bytesOf ps ≤ packetSize
      · refine ⟨{ q with base := base, firstAboveTime := 0 }, ?_, hps, hv, rfl, rfl⟩
        have hok : (decide (q.target ≤ sojournTime) && decide (packetSize < bytesOf ps)) = false := by
          simp only [Bool.and_eq_false_iff, decide_eq_false_iff_not]
          omega
        rw [if_pos hlow, hok, Bool.false_and, Bool.false_and]
      · have hhigh : q.target ≤ sojournTime ∧ packetSize < bytesOf ps := by omega
        rw [if_neg hlow]
        by_cases hzero : q.firstAboveTime = 0
        · refine ⟨{ q with base := base, firstAboveTime := u64 (now + q.interval) },
            ?_, hps, hv, rfl, rfl⟩
          simp [hzero]
        · refine ⟨{ q with base := base }, ?_, hps, hv, rfl, rfl⟩
          simp [hzero, hhigh]

theorem length_of_headOkToDrop {now : Nat} {q : CODELPacketQueue W} {p : QueuedPacket}
    {ps : List QueuedPacket} (h : q.internalQueue = p :: ps)
    (hok : q.headOkToDrop now = true) : ps ≠ [] := by
  simp only [headOkToDrop, h, Bool.and_eq_true, decide_eq_true_eq] at hok
  exact hok.1.1.1.1

/-! ## The drop loop -/

/-- The state of the drop loop: what has been taken off is the front of the
queue, and there is a packet left whenever the loop may want one. -/
structure DropInv (front : List QueuedPacket) (t : CODELPacketQueue W × List DodequeueResult) :
    Prop where
  valid : t.1.base.Valid
  taken : t.2.map DodequeueResult.p ++ t.1.internalQueue = front
  more : t.1.dropping = true → t.1.internalQueue ≠ []

theorem dropTurn_spec {now : Nat} {front : List QueuedPacket}
    {t : CODELPacketQueue W × List DodequeueResult} (hI : DropInv front t)
    (hcond : stillDropping now t = true) :
    ∃ t', dropTurn now t = .ok t' ∧ DropInv front t' ∧ t'.2 ≠ [] ∧
      t'.1.internalQueue.length < t.1.internalQueue.length := by
  obtain ⟨q, rs⟩ := t
  simp only [stillDropping, Bool.and_eq_true] at hcond
  obtain ⟨p, ps, hps⟩ := List.exists_cons_of_ne_nil (hI.more hcond.2)
  obtain ⟨q', hd, hps', hv', -⟩ := dodequeue_spec now hps hI.valid
  have htaken : (rs ++ [(⟨p, q.headOkToDrop now⟩ : DodequeueResult)]).map DodequeueResult.p
      ++ q'.internalQueue = front := by
    rw [← hI.taken, hps, hps']; simp
  have hlen : q'.internalQueue.length < q.internalQueue.length := by rw [hps, hps']; simp
  by_cases hok : q.headOkToDrop now = true
  · rw [hok] at htaken
    refine ⟨({ q' with
        count := u32 (q'.count + 1)
        dropNext := q'.controlLaw q'.dropNext (u32 (q'.count + 1)) }, rs ++ [⟨p, true⟩]),
      by simp [dropTurn, hd, hok, controlLaw], ⟨hv', htaken, fun _ => ?_⟩,
      by simp, hlen⟩
    show q'.internalQueue ≠ []
    rw [hps']
    exact length_of_headOkToDrop hps hok
  · rw [Bool.not_eq_true] at hok
    rw [hok] at htaken
    refine ⟨({ q' with count := u32 (q'.count + 1), dropping := false }, rs ++ [⟨p, false⟩]),
      by simp [dropTurn, hd, hok], ⟨hv', htaken, ?_⟩,
      by simp, hlen⟩
    intro hdrop
    cases hdrop

/-- The loop takes packets off the front and stops; it takes none exactly when
its test fails at the start. -/
theorem dropLoop_spec (now : Nat) {q : CODELPacketQueue W} (hq : q.base.Valid)
    (hmore : q.dropping = true → q.internalQueue ≠ []) :
    ∃ q' rs, q.dropLoop now = .ok (q', rs) ∧ q'.base.Valid ∧
      rs.map DodequeueResult.p ++ q'.internalQueue = q.internalQueue ∧
      (rs = [] ↔ stillDropping now (q, ([] : List DodequeueResult)) = false) := by
  have hturn : ∀ t, (DropInv q.internalQueue t ∧ (t.2 = [] → t = (q, []))) →
      (∃ t', whileDo (stillDropping now) (dropTurn now) t = .ok (.inl t') ∧
        (DropInv q.internalQueue t' ∧ (t'.2 = [] → t' = (q, []))) ∧
        t'.1.internalQueue.length < t.1.internalQueue.length) ∨
      ∃ r, whileDo (stillDropping now) (dropTurn now) t = .ok (.inr r) ∧
        DropInv q.internalQueue r ∧ (r.2 = [] → r = (q, [])) ∧ stillDropping now r = false := by
    rintro t ⟨hI, hstart⟩
    cases hc : stillDropping now t with
    | false => exact .inr ⟨t, whileDo_leave.mpr ⟨hc, rfl⟩, hI, hstart, hc⟩
    | true =>
        obtain ⟨t', hb, hI', hne, hlt⟩ := dropTurn_spec hI hc
        exact .inl ⟨t', whileDo_again.mpr ⟨hc, hb⟩, ⟨hI', fun h => absurd h hne⟩, hlt⟩
  obtain ⟨⟨q', rs⟩, hloop, hI, hstart, hc⟩ :=
    loop_total .diverges hturn (s := (q, [])) ⟨⟨hq, rfl, hmore⟩, fun _ => rfl⟩
      q.internalQueue.length.lt_succ_self
  refine ⟨q', rs, hloop, hI.valid, hI.taken, fun hrs => by rw [← hstart hrs]; exact hc, fun hfalse => ?_⟩
  rw [loop, whileDo_leave.mpr ⟨hfalse, rfl⟩] at hloop
  simp only [Except.ok.injEq, Prod.mk.injEq] at hloop
  exact hloop.2.symm

/-! ## One dequeue call -/

/-- The states in which `dequeue` takes more than one packet off the queue:
the head may be dropped, and the drop schedule, if one is running, has come
to its next drop. -/
def discards (now : Nat) (q : CODELPacketQueue W) : Bool :=
  q.headOkToDrop now && (!q.dropping || decide (q.dropNext ≤ now))

/-- On a valid queue that is not empty `dequeue` does not fail. What it takes
off is the front of the queue, and it is more than one packet exactly when
the state `discards`. -/
theorem dequeueTrace_spec (now : Nat) {q : CODELPacketQueue W} (hq : q.base.Valid)
    (hne : q.internalQueue ≠ []) :
    ∃ r rs q', q.dequeueTrace now = .ok (r, rs, q') ∧ q'.base.Valid ∧
      (r :: rs).map DodequeueResult.p ++ q'.internalQueue = q.internalQueue ∧
      r.okToDrop = q.headOkToDrop now ∧ (rs = [] ↔ q.discards now = false) := by
  obtain ⟨p, ps, hps⟩ := List.exists_cons_of_ne_nil hne
  obtain ⟨q₁, hd, hps₁, hv₁, hsame⟩ := dodequeue_spec now hps hq
  cases hok : q.headOkToDrop now with
  | false =>
      rw [hok] at hd
      cases hdrop : q.dropping with
      | false =>
          refine ⟨⟨p, false⟩, [], q₁, ?_, hv₁, by simp [hps, hps₁], rfl, by simp [discards, hok]⟩
          simp [dequeueTrace, hd, hsame.dropping, hdrop]
      | true =>
          obtain ⟨q₂, rs, hloop, hv₂, htaken, hrs⟩ :=
            dropLoop_spec now (q := { q₁ with dropping := false }) hv₁ (by simp)
          obtain rfl : rs = [] := hrs.mpr (by simp [stillDropping])
          refine ⟨⟨p, false⟩, [], q₂, ?_, hv₂, ?_, rfl, by simp [discards, hok]⟩
          · simp [dequeueTrace, hd, hsame.dropping, hdrop, hloop]
          · have hrest : q₂.internalQueue = q₁.internalQueue := htaken
            simp [hrest, hps, hps₁]
  | true =>
      rw [hok] at hd
      have hmore : q₁.internalQueue ≠ [] := hps₁ ▸ length_of_headOkToDrop hps hok
      cases hdrop : q.dropping with
      | false =>
          obtain ⟨p', ps', hps'⟩ := List.exists_cons_of_ne_nil hmore
          obtain ⟨q₂, hd₂, hps₂, hv₂, -⟩ := dodequeue_spec now hps' hv₁
          refine ⟨⟨p, true⟩, [⟨p', q₁.headOkToDrop now⟩], q₂.enterDropping now,
            ?_, hv₂, ?_, rfl, by simp [discards, hok, hdrop]⟩
          · simp [dequeueTrace, hd, hsame.dropping, hdrop, hd₂]
          · show p :: p' :: q₂.internalQueue = q.internalQueue
            rw [hps, ← hps₁, hps', hps₂]
      | true =>
          obtain ⟨q₂, rs, hloop, hv₂, htaken, hrs⟩ :=
            dropLoop_spec now hv₁ (fun _ => hmore)
          refine ⟨⟨p, true⟩, rs, q₂, ?_, hv₂, ?_, rfl, ?_⟩
          · simp [dequeueTrace, hd, hsame.dropping, hdrop, hloop]
          · simp [htaken, hps, hps₁]
          · rw [hrs]
            simp [stillDropping, discards, hok, hdrop, hsame.dropNext, hsame.dropping]

/-- What the class promises of `dequeue`: the packet it returns is the last
one it removed from the queue, and each packet it removed before that one had
`ok_to_drop` set. -/
def RemovesAsDecided (now : Nat) (q : CODELPacketQueue W) : Prop :=
  ∃ p q' rs last, q.dequeue now = .ok (p, q') ∧ q.dodequeues now = .ok (rs ++ [last]) ∧
    p = last.p ∧ ∀ r ∈ rs, r.okToDrop = true

theorem removesAsDecided_of_not_discards {now : Nat} {q : CODELPacketQueue W} (hq : q.base.Valid)
    (hne : q.internalQueue ≠ []) (h : q.discards now = false) : q.RemovesAsDecided now := by
  obtain ⟨r, rs, q', htrace, -, -, -, hrs⟩ := dequeueTrace_spec now hq hne
  obtain rfl := hrs.mpr h
  exact ⟨r.p, q', [], r, by simp [dequeue, htrace], by simp [dodequeues, htrace], rfl, by simp⟩

/-- Where it discards, `dequeue` returns the first of several packets. -/
theorem not_removesAsDecided {now : Nat} {q : CODELPacketQueue W} (hq : q.base.Valid)
    (hne : q.internalQueue ≠ []) (hnd : q.internalQueue.Nodup) (h : q.discards now = true) :
    ¬ q.RemovesAsDecided now := by
  rintro ⟨p, q'', init, last, hdeq, hall, hp, -⟩
  obtain ⟨r, rs, q', htrace, -, htaken, -, hrs⟩ := dequeueTrace_spec now hq hne
  obtain ⟨rfl, -⟩ : r.p = p ∧ q' = q'' := by simpa [dequeue, htrace] using hdeq
  have hlist : r :: rs = init ++ [last] := by simpa [dodequeues, htrace] using hall
  have hrs' : rs ≠ [] := fun hnil => by rw [hrs.mp hnil] at h; cases h
  cases init with
  | nil => simp only [List.nil_append, List.cons.injEq] at hlist; exact hrs' hlist.2
  | cons r' init =>
      obtain ⟨rfl, rfl⟩ : r = r' ∧ rs = init ++ [last] := by simpa using hlist
      rw [← htaken] at hnd
      simp [hp] at hnd

/-! ## Whole runs -/

theorem enqueue_valid {q q' : CODELPacketQueue W} {p : QueuedPacket} (hq : q.base.Valid)
    (hp : W.Fits p.size) (h : q.enqueue p = .ok q') : q'.base.Valid := by
  simp only [enqueue, bind_eq_ok, pure_eq_ok, Except.ok.injEq] at h
  obtain ⟨b, -, u, hg, rfl⟩ := h
  exact DroppingPacketQueue.accept_if_valid hq hp hg

/-- What a `dequeue` that returns takes off the queue. -/
theorem dequeue_step {now : Nat} {q q' : CODELPacketQueue W} {p : QueuedPacket}
    (hq : q.base.Valid) (h : q.dequeue now = .ok (p, q')) :
    q'.base.Valid ∧ ∃ lost, q.internalQueue = p :: (lost ++ q'.internalQueue) ∧
      (lost = [] ↔ q.discards now = false) := by
  by_cases hne : q.internalQueue = []
  · have hd : q.base.dequeue = .error (.assertion "not internal_queue_.empty()") := by
      simp [DroppingPacketQueue.dequeue, CountedQueue.pop_eq_none.mpr hne]
    simp [dequeue, dequeueTrace, dodequeue, hd] at h
  · obtain ⟨r, rs, q'', htrace, hv, htaken, -, hrs⟩ := dequeueTrace_spec now hq hne
    obtain ⟨rfl, rfl⟩ : r.p = p ∧ q'' = q' := by simpa [dequeue, htrace] using h
    exact ⟨hv, rs.map DodequeueResult.p, htaken.symm, by rw [List.map_eq_nil_iff, hrs]⟩

theorem runCalls_valid (calls : List QueueCall) :
    ∀ {q q' : CODELPacketQueue W}, q.base.Valid → (∀ p ∈ offered calls, W.Fits p.size) →
      runCalls calls q = .ok q' → q'.base.Valid := by
  induction calls with
  | nil => intro q q' hq _ h; cases h; exact hq
  | cons c calls ih =>
      intro q q' hq hsize h
      cases c with
      | enqueue env p =>
          simp only [runCalls, bind_eq_ok] at h
          obtain ⟨q₁, he, h⟩ := h
          exact ih (enqueue_valid hq (hsize p (by simp [offered])) he)
            (fun p' hp' => hsize p' (by simp [offered, hp'])) h
      | dequeue env =>
          simp only [runCalls, bind_eq_ok] at h
          obtain ⟨⟨p, q₁⟩, hd, h⟩ := h
          exact ih (dequeue_step hq hd).1 hsize h

/-- **What CoDel drops.** In every state a run of calls can reach, with a
packet queued, `dequeue` keeps its promise whenever the state does not
discard; and where the queued packets can be told apart it keeps it only
then. -/
theorem removesAsDecided_iff (W : Arith) (l : Limits) (target interval : Nat)
    (controlStep : Nat → Nat) (calls : List QueueCall) (hsize : ∀ p ∈ offered calls, W.Fits p.size)
    (q : CODELPacketQueue W)
    (hrun : runCalls calls (initial W l target interval controlStep) = .ok q)
    (hne : q.internalQueue ≠ []) (now : Nat) :
    (q.discards now = false → q.RemovesAsDecided now) ∧
      (q.internalQueue.Nodup → q.RemovesAsDecided now → q.discards now = false) := by
  have hq := runCalls_valid calls (q := initial W l target interval controlStep)
    (DroppingPacketQueue.initial_valid l) hsize hrun
  refine ⟨removesAsDecided_of_not_discards hq hne, fun hnd h => ?_⟩
  by_contra hdisc
  exact not_removesAsDecided hq hne hnd (by simpa using hdisc) h

/-- Four full-size packets that arrive at once, and a first dequeue that finds
them over the target. -/
def standingQueue : List QueueCall :=
  (List.range 4).map (fun i =>
    .enqueue ⟨0, 0, 0⟩ ⟨0, List.replicate 1504 i.toUInt8⟩) ++ [.dequeue ⟨10, 10, 0⟩]

/-- With a target of 5 ms and an interval of 100 ms, the standing queue is
discarded from once it has stood for the interval, and not before. -/
theorem standingQueue_discards :
    ∃ q, runCalls standingQueue (initial .machine ⟨100, 0⟩ 5 100 (Nat.sqrt <| 100 ^ 2 / ·)) = .ok q ∧
      q.internalQueue ≠ [] ∧ q.internalQueue.Nodup ∧ q.discards 50 = false ∧
      q.discards 200 = true := by
  have hstate : (runCalls standingQueue
      (initial .machine ⟨100, 0⟩ 5 100 (Nat.sqrt <| 100 ^ 2 / ·))).toOption.any
        (fun q => decide (q.internalQueue ≠ [] ∧ q.internalQueue.Nodup ∧ q.discards 50 = false ∧
          q.discards 200 = true))
      = true := by decide +kernel
  cases hrun : runCalls standingQueue (initial .machine ⟨100, 0⟩ 5 100 (Nat.sqrt <| 100 ^ 2 / ·)) with
  | error e => rw [hrun] at hstate; cases hstate
  | ok q =>
      rw [hrun] at hstate
      exact ⟨q, rfl, of_decide_eq_true hstate⟩

/-- From one state of the standing queue: at 50 ms the promise is kept, at 200 ms it is not. -/
theorem removesAsDecided_iff_standingQueue :
    ∃ q, runCalls standingQueue (initial .machine ⟨100, 0⟩ 5 100 (Nat.sqrt <| 100 ^ 2 / ·)) = .ok q ∧
      q.RemovesAsDecided 50 ∧ ¬ q.RemovesAsDecided 200 := by
  obtain ⟨q, hrun, hne, hnd, hkept, hdiscards⟩ := standingQueue_discards
  have hiff := removesAsDecided_iff .machine ⟨100, 0⟩ 5 100 (Nat.sqrt <| 100 ^ 2 / ·) standingQueue
    (by decide +kernel) q hrun hne
  refine ⟨q, hrun, (hiff 50).1 hkept, fun h => ?_⟩
  rw [(hiff 200).2 hnd h] at hdiscards
  cases hdiscards

/-- At 200 ms `dequeue` takes off two packets of the standing queue and returns the
first. -/
theorem standingQueue_returns_first :
    ∃ q, runCalls standingQueue (initial .machine ⟨100, 0⟩ 5 100 (Nat.sqrt <| 100 ^ 2 / ·)) = .ok q ∧
      q.internalQueue ≠ [] ∧ ¬ q.RemovesAsDecided 200 := by
  obtain ⟨q, hrun, hne, hnd, -, hdiscards⟩ := standingQueue_discards
  have hq := runCalls_valid standingQueue (DroppingPacketQueue.initial_valid _)
    (by decide +kernel) hrun
  exact ⟨q, hrun, hne, not_removesAsDecided hq hne hnd hdiscards⟩

/-- **`dequeue` is safe.** In every state a run of calls can reach with a packet
queued, whatever the clock and the members of the drop schedule say, `dequeue`
comes to its end with no assertion failed. The packets that its `dodequeue`
calls have popped are the front of the queue, the rest is still there, and the
packet that it returns is one of those popped. -/
theorem dequeue_pops_front (W : Arith) (l : Limits) (target interval : Nat)
    (controlStep : Nat → Nat) (calls : List QueueCall) (hsize : ∀ p ∈ offered calls, W.Fits p.size)
    (q : CODELPacketQueue W)
    (hrun : runCalls calls (initial W l target interval controlStep) = .ok q)
    (hne : q.internalQueue ≠ []) (now firstAboveTime dropNext count lastcount : Nat)
    (dropping : Bool) :
    let q₀ : CODELPacketQueue W :=
      { q with
        firstAboveTime := firstAboveTime
        dropNext := dropNext
        count := count
        lastcount := lastcount
        dropping := dropping }
    ∃ p q' popped, q₀.dequeue now = .ok (p, q') ∧ q₀.dodequeues now = .ok popped ∧
      popped.map DodequeueResult.p ++ q'.internalQueue = q.internalQueue ∧
      p ∈ popped.map DodequeueResult.p := by
  intro q₀
  have hq := runCalls_valid calls (q := initial W l target interval controlStep)
    (DroppingPacketQueue.initial_valid l) hsize hrun
  obtain ⟨r, rs, q', htrace, -, htaken, -, -⟩ := dequeueTrace_spec now (q := q₀) hq hne
  refine ⟨r.p, q', r :: rs, ?_, ?_, htaken, ?_⟩
  · simp [dequeue, htrace]
  · simp [dodequeues, htrace]
  · exact List.mem_cons_self

/-- The standing queue, with a schedule in the middle of dropping: of the three packets
that are left, `dequeue` pops more than one. -/
theorem dequeue_pops_front_standingQueue :
    ∃ q, runCalls standingQueue (initial .machine ⟨100, 0⟩ 5 100 (Nat.sqrt <| 100 ^ 2 / ·)) = .ok q ∧
      let q₀ : CODELPacketQueue .machine :=
        { q with firstAboveTime := 3, dropNext := 4, count := 7, lastcount := 2, dropping := true }
      ∃ p q' popped, q₀.dequeue 200 = .ok (p, q') ∧ q₀.dodequeues 200 = .ok popped ∧
        popped.map DodequeueResult.p ++ q'.internalQueue = q.internalQueue ∧
        p ∈ popped.map DodequeueResult.p ∧ 1 < popped.length := by
  obtain ⟨q, hrun, hne, -⟩ := standingQueue_discards
  refine ⟨q, hrun, ?_⟩
  obtain ⟨p, q', popped, hdequeue, hpopped, hqueue, hp⟩ :=
    dequeue_pops_front .machine ⟨100, 0⟩ 5 100 (Nat.sqrt <| 100 ^ 2 / ·) standingQueue
      (by decide +kernel) q hrun hne 200 3 4 7 2 true
  have hlength : (((runCalls standingQueue
      (initial .machine ⟨100, 0⟩ 5 100 (Nat.sqrt <| 100 ^ 2 / ·))).bind fun q =>
        dodequeues 200 { q with
          firstAboveTime := 3, dropNext := 4, count := 7, lastcount := 2, dropping := true }).toOption.map
      fun popped => decide (1 < popped.length)) = some true := by decide +kernel
  rw [hrun] at hlength
  simp only [Except.bind, hpopped] at hlength
  exact ⟨p, q', popped, hdequeue, hpopped, hqueue, hp,
    of_decide_eq_true (Option.some.inj hlength)⟩

end CODELPacketQueue

end Mahimahi
