import Mahimahi.DelayRule
import Mahimahi.LinkSchedule

/-!
# From a trace file to delivery opportunities

The constructor reads a number from each line, as a `long`, and keeps it as a
`uint64_t`; its checks are made on what it keeps. So a negative number becomes
a time close to the end of the range, and passes. What comes of it shows in
`next_delivery_time`, which adds the base timestamp in 64 bits
(`opportunity_eq`).

Two successive opportunities are less than `2^64` apart (`scheduled_succ_lt`),
so where the sum is reduced, the time goes back. It never does exactly if the
unbounded times all lie between two multiples of `2^64`
(`ordered_mod_iff`, `never_decrease_iff`).
-/

namespace Mahimahi

/-! ## The constructor -/

/-- The loop over the lines of the file; `schedule` is what has been read so far. -/
def loadSchedule (filename : Bytes) : List Bytes → List Nat → Except Fault (List Nat)
  | [], schedule => .ok schedule
  | line :: rest, schedule => do
      if line.isEmpty then
        throw (.runtimeErrorWith "" (filename ++ ascii ": invalid empty line"))
      let ms := uint64 (← myatoi line 10)
      if schedule.getLast?.any (fun back => decide (ms < back)) then
        throw (.runtimeErrorWith ""
          (filename ++ ascii ": timestamps must be monotonically nondecreasing"))
      loadSchedule filename rest (schedule ++ [ms])

/-- What the lines leave behind: numbers of 64 bits in their order. -/
theorem loadSchedule_spec {filename : Bytes} : ∀ {text : List Bytes} {schedule schedule' : List Nat},
    loadSchedule filename text schedule = .ok schedule' →
    schedule.Pairwise (· ≤ ·) → (∀ ms ∈ schedule, ms < 2 ^ 64) →
    schedule'.Pairwise (· ≤ ·) ∧ ∀ ms ∈ schedule', ms < 2 ^ 64
  | [], _, _, h, hsorted, hlt => by
      cases h
      exact ⟨hsorted, hlt⟩
  | line :: rest, schedule, schedule', h, hsorted, hlt => by
      rw [loadSchedule] at h
      by_cases hempty : line.isEmpty = true
      · simp [hempty] at h
      rw [if_neg hempty] at h
      obtain ⟨v, -, h⟩ := bind_eq_ok.mp h
      by_cases hback : schedule.getLast?.any (fun back => decide (uint64 v < back)) = true
      · simp [hback] at h
      rw [if_neg hback] at h
      have hv : uint64 v < 2 ^ 64 := by
        simp only [uint64]
        omega
      refine loadSchedule_spec h (List.pairwise_append.mpr ⟨hsorted, List.pairwise_singleton _ _, ?_⟩)
        fun ms hms => ?_
      · intro ms hms ms' hms'
        obtain rfl := List.mem_singleton.mp hms'
        -- the last entry is the greatest, and the test is against that one
        have hne : schedule ≠ [] := List.ne_nil_of_mem hms
        have hlast := hsorted.rel_getLast hms
        rw [List.getLast?_eq_some_getLast hne] at hback
        simp only [Option.any_some, decide_eq_true_eq] at hback
        omega
      · rcases List.mem_append.mp hms with hms | hms
        · exact hlt ms hms
        · obtain rfl := List.mem_singleton.mp hms
          exact hv

/-- The part of the constructor that reads the file `filename`. -/
def readTrace (filename text : Bytes) (repeats : Bool) : Except Fault Trace :=
  match h : loadSchedule filename (lines text) [] with
  | .error e => .error e
  | .ok schedule =>
      if hnil : schedule = [] then
        .error (.runtimeErrorWith "" (filename ++ ascii ": no valid timestamps found"))
      else if hlast : schedule.getLast hnil = 0 then
        .error (.runtimeErrorWith ""
          (filename ++ ascii ": trace must last for a nonzero amount of time"))
      else
        .ok ⟨schedule, repeats, hnil, (loadSchedule_spec h .nil (by simp)).1,
          Nat.pos_of_ne_zero hlast⟩

theorem readTrace_eq_ok {filename text : Bytes} {repeats : Bool} {tr : Trace} :
    readTrace filename text repeats = .ok tr ↔
      loadSchedule filename (lines text) [] = .ok tr.schedule ∧ tr.repeats = repeats := by
  unfold readTrace
  split
  · next e h => simp [h]
  · next schedule h =>
      obtain ⟨s, r, hne, hsorted, hlast⟩ := tr
      have hload : loadSchedule filename (lines text) [] = .ok s ↔ schedule = s := by
        rw [h, Except.ok.injEq]
      rw [hload]
      constructor
      · intro hok
        by_cases hnil : schedule = []
        · simp [hnil] at hok
        rw [dif_neg hnil] at hok
        by_cases hzero : schedule.getLast hnil = 0
        · simp [hzero] at hok
        rw [dif_neg hzero] at hok
        cases hok
        exact ⟨rfl, rfl⟩
      · rintro ⟨rfl, rfl⟩
        rw [dif_neg hne, dif_neg (Nat.ne_of_gt hlast)]

/-! ## Times in 64 bits -/

/-- A sequence whose steps are shorter than `2^64` stays in order when it is
reduced exactly if it stays between two multiples of `2^64`. -/
theorem ordered_mod_iff {t : Nat → Nat} : ∀ {n : Nat}, (∀ k < n, t k ≤ t (k + 1)) →
    (∀ k < n, t (k + 1) < t k + 2 ^ 64) →
    ((∀ k < n, t k % 2 ^ 64 ≤ t (k + 1) % 2 ^ 64) ↔ t n / 2 ^ 64 = t 0 / 2 ^ 64)
  | 0, _, _ => by simp
  | n + 1, hle, hlt => by
      have ih := ordered_mod_iff (n := n) (fun k hk => hle k (by omega)) (fun k hk => hlt k (by omega))
      have hstart : t 0 ≤ t n := by
        clear ih hlt
        induction n with
        | zero => exact Nat.le_refl _
        | succ n ih => exact Nat.le_trans (ih fun k hk => hle k (by omega)) (hle n (by omega))
      have hle := hle n (by omega)
      have hlt := hlt n (by omega)
      constructor
      · intro h
        have hn := ih.mp fun k hk => h k (by omega)
        have hlast := h n (by omega)
        omega
      · intro h k hk
        have hn : t n / 2 ^ 64 = t 0 / 2 ^ 64 := by omega
        rcases Nat.lt_succ_iff_lt_or_eq.mp hk with hk | rfl
        · exact ih.mpr hn k hk
        · omega

namespace Trace

variable {tr : Trace}

theorem getD_lt {m : Nat} (hlt : ∀ ms ∈ tr.schedule, ms < m) {i : Nat} (hi : i < tr.schedule.length) :
    tr.schedule.getD i 0 < m := by
  rw [List.getD_eq_getElem _ _ hi]
  exact hlt _ (List.getElem_mem hi)

/-- The next opportunity on paper: the next entry, or the first one of the next
round, counted from the last entry. -/
theorem scheduled_succ (tr : Trace) (b k : Nat) :
    (k % tr.schedule.length + 1 < tr.schedule.length ∧ tr.scheduled b (k + 1)
      = b + k / tr.schedule.length * tr.last + tr.schedule.getD (k % tr.schedule.length + 1) 0) ∨
    tr.scheduled b (k + 1) = tr.scheduled b k + tr.schedule.getD 0 0 := by
  have hpos := tr.length_pos
  have hmod := Nat.mod_lt k hpos
  by_cases hnext : k % tr.schedule.length + 1 < tr.schedule.length
  · refine .inl ⟨hnext, ?_⟩
    have hk : (k + 1) % tr.schedule.length = k % tr.schedule.length + 1 := by
      rw [← Nat.mod_add_mod, Nat.mod_eq_of_lt hnext]
    have hround : (k + 1) / tr.schedule.length = k / tr.schedule.length := by
      rw [Nat.succ_div, if_neg, Nat.add_zero]
      rw [Nat.dvd_iff_mod_eq_zero, hk]
      exact Nat.succ_ne_zero _
    rw [scheduled, hk, hround]
  · have hend : k % tr.schedule.length + 1 = tr.schedule.length := by omega
    have hk : (k + 1) % tr.schedule.length = 0 := by
      rw [← Nat.mod_add_mod, hend, Nat.mod_self]
    have hround : (k + 1) / tr.schedule.length = k / tr.schedule.length + 1 := by
      rw [Nat.succ_div, if_pos (Nat.dvd_of_mod_eq_zero hk)]
    have hlast : tr.schedule.getD (k % tr.schedule.length) 0 = tr.last := by
      rw [List.getD_eq_getElem _ _ hmod, last, List.getLast_eq_getElem]
      congr 1
      omega
    rw [scheduled, scheduled, hk, hround, hlast, Nat.succ_mul]
    exact .inr (by omega)

theorem scheduled_le_succ (tr : Trace) (b k : Nat) : tr.scheduled b k ≤ tr.scheduled b (k + 1) := by
  rcases tr.scheduled_succ b k with ⟨hnext, h⟩ | h
  · have hlt := Nat.mod_lt k tr.length_pos
    rw [h, scheduled, List.getD_eq_getElem _ _ hlt, List.getD_eq_getElem _ _ hnext]
    have := List.pairwise_iff_getElem.mp tr.sorted _ _ hlt hnext (by omega)
    omega
  · omega

theorem scheduled_succ_lt (hlt : ∀ ms ∈ tr.schedule, ms < 2 ^ 64) (b k : Nat) :
    tr.scheduled b (k + 1) < tr.scheduled b k + 2 ^ 64 := by
  rcases tr.scheduled_succ b k with ⟨hnext, h⟩ | h
  · have := getD_lt hlt hnext
    rw [h, scheduled]
    omega
  · have := getD_lt hlt tr.length_pos
    omega

/-- As long as the index has not run out of numbers, the code's counting is the
one on paper. -/
theorem time_cursorAt_of_lt (hrep : tr.repeats = true) (b : Nat) {k : Nat} (hk : k < 2 ^ 32) :
    tr.time (tr.cursorAt b k) = tr.scheduled b k := by
  rw [(time_cursorAt_of_repeats hrep b k).2, scheduled]
  rcases Nat.lt_or_ge (2 ^ 32) tr.schedule.length with hlong | hshort
  · have hperiod : tr.period = 2 ^ 32 := Nat.min_eq_right (Nat.le_of_lt hlong)
    have hk' : k < tr.schedule.length := Nat.lt_trans hk hlong
    rw [hperiod, Nat.mod_eq_of_lt hk, Nat.mod_eq_of_lt hk', Nat.div_eq_of_lt hk,
      Nat.div_eq_of_lt hk']
  · rw [show tr.period = tr.schedule.length from Nat.min_eq_left hshort]

end Trace

namespace LinkQueue

variable {tr : Trace} {Q : Type}

/-- The `k`-th delivery opportunity of a link, as `next_delivery_time` computes it. -/
def opportunity (tr : Trace) (packetQueue : Q) (b k : Nat) : Nat :=
  (useADeliveryOpportunity^[k] (initial tr packetQueue b)).nextDeliveryTime

/-- The link stands where the cursor says, but for multiples of `2^64`. -/
structure Follows (q : LinkQueue tr Q) (c : Cursor) : Prop where
  next : q.nextDelivery = c.next
  base : q.baseTimestamp % 2 ^ 64 = c.base % 2 ^ 64
  finished : q.finished = c.finished

theorem Follows.use {q : LinkQueue tr Q} {c : Cursor} (h : q.Follows c) :
    q.useADeliveryOpportunity.Follows (tr.advance c) := by
  refine ⟨?_, ?_, ?_⟩
  · simp only [useADeliveryOpportunity, record, Trace.advance, h.next]
  · have hbase := h.base
    simp only [useADeliveryOpportunity, record, Trace.advance, h.next]
    split
    · simp only [u64, Nat.mod_mod]
      rw [Nat.add_mod, hbase, ← Nat.add_mod]
    · exact hbase
  · simp only [useADeliveryOpportunity, record, Trace.advance, h.next, h.finished]

theorem follows_iterate (tr : Trace) (packetQueue : Q) (b k : Nat) :
    (useADeliveryOpportunity^[k] (initial tr packetQueue b)).Follows (tr.cursorAt b k) := by
  induction k with
  | zero => exact ⟨rfl, rfl, rfl⟩
  | succ k ih =>
      rw [Function.iterate_succ_apply', Trace.cursorAt_succ]
      exact ih.use

theorem Follows.nextDeliveryTime {q : LinkQueue tr Q} {c : Cursor} (h : q.Follows c)
    (hrun : c.finished = false) : q.nextDeliveryTime = tr.time c % 2 ^ 64 := by
  have hrun' : q.finished = false := h.finished.trans hrun
  have hlt : c.next < tr.schedule.length := h.next ▸ q.next_lt
  simp only [LinkQueue.nextDeliveryTime, hrun', Bool.false_eq_true, if_false, List.get_eq_getElem,
    Trace.time, List.getD_eq_getElem _ _ hlt, u64, h.next]
  rw [Nat.add_mod, h.base, ← Nat.add_mod]

theorem opportunity_eq (hrep : tr.repeats = true) (packetQueue : Q) (b k : Nat) :
    opportunity tr packetQueue b k = tr.time (tr.cursorAt b k) % 2 ^ 64 :=
  (follows_iterate tr packetQueue b k).nextDeliveryTime (Trace.time_cursorAt_of_repeats hrep b k).1

/-- The opportunities of the trace do not go back in time, for as long as fewer
than `2^20` have been used. -/
def NeverDecrease (tr : Trace) (packetQueue : Q) (b : Nat) : Prop :=
  ∀ k, k + 1 < 2 ^ 20 → opportunity tr packetQueue b k ≤ opportunity tr packetQueue b (k + 1)

theorem neverDecrease_iff (hrep : tr.repeats = true) (hlt : ∀ ms ∈ tr.schedule, ms < 2 ^ 64)
    (packetQueue : Q) (b : Nat) : NeverDecrease tr packetQueue b ↔
      tr.scheduled b (2 ^ 20 - 1) / 2 ^ 64 = tr.scheduled b 0 / 2 ^ 64 := by
  have hmod : ∀ k, k < 2 ^ 20 → opportunity tr packetQueue b k = tr.scheduled b k % 2 ^ 64 := by
    intro k hk
    rw [opportunity_eq hrep, Trace.time_cursorAt_of_lt hrep b (by omega)]
  rw [← ordered_mod_iff (fun k _ => tr.scheduled_le_succ b k)
    (fun k _ => Trace.scheduled_succ_lt hlt b k)]
  constructor
  · intro h k hk
    rw [← hmod k (by omega), ← hmod (k + 1) (by omega)]
    exact h k (by omega)
  · intro h k hk
    rw [hmod k (by omega), hmod (k + 1) (by omega)]
    exact h k (by omega)

/-! ## The opportunities of a run -/

section

variable [AbstractPacketQueue Q] {world : Nat → Env} {packetQueue : Q} {b n : Nat}
  {q q' : LinkQueue tr Q}

/-- The log of the link has its first `n` opportunities, and the next is the `n`-th. -/
structure HasUsed (packetQueue : Q) (b n : Nat) (q : LinkQueue tr Q) : Prop where
  follows : q.Follows (tr.cursorAt b n)
  logged : q.opportunityTimes = (List.range n).map (opportunity tr packetQueue b)

omit [AbstractPacketQueue Q] in
theorem HasUsed.of_same (h : HasUsed packetQueue b n q) (hcursor : q'.cursor = q.cursor)
    (hlog : q'.opportunityTimes = q.opportunityTimes) : HasUsed packetQueue b n q' where
  follows :=
    { next := (congrArg Cursor.next hcursor).trans h.follows.next
      base := (congrArg (Cursor.base · % 2 ^ 64) hcursor).trans h.follows.base
      finished := (congrArg Cursor.finished hcursor).trans h.follows.finished }
  logged := hlog.trans h.logged

theorem deliver_opportunityTimes (h : deliver world q = .ok q') :
    q'.opportunityTimes = q.useADeliveryOpportunity.opportunityTimes := by
  obtain ⟨-, hlog, -⟩ := deliver_invariant h
    (I := fun _ s => s.opportunityTimes = q.useADeliveryOpportunity.opportunityTimes) rfl
    fun _ s s₁ hI _ hf _ => by
      obtain ⟨_, _, _, _, rfl⟩ := fetch_frame hf
      rw [← hI]
      simp only [send]
      split <;> simp [opportunityTimes, record]
  exact hlog

theorem HasUsed.deliver (hrep : tr.repeats = true) (h : HasUsed packetQueue b n q)
    (hd : LinkQueue.deliver world q = .ok q') : HasUsed packetQueue b (n + 1) q' := by
  have huse : HasUsed packetQueue b (n + 1) q.useADeliveryOpportunity := by
    refine ⟨by rw [Trace.cursorAt_succ]; exact h.follows.use, ?_⟩
    have htime : q.nextDeliveryTime = opportunity tr packetQueue b n :=
      (h.follows.nextDeliveryTime (Trace.time_cursorAt_of_repeats hrep b n).1).trans
        (opportunity_eq hrep packetQueue b n).symm
    have hlog := h.logged
    simp only [opportunityTimes] at hlog
    simp [useADeliveryOpportunity, record, opportunityTimes, List.range_succ, hlog, htime]
  exact huse.of_same (deliver_cursor hd) (deliver_opportunityTimes hd)

theorem HasUsed.rationalize (hrep : tr.repeats = true) {now : Nat} (h : HasUsed packetQueue b n q)
    (hr : LinkQueue.rationalize world now q = .ok q') : ∃ m, HasUsed packetQueue b m q' :=
  rationalize_invariant hr (I := fun s => ∃ m, HasUsed packetQueue b m s) ⟨n, h⟩
    fun _ _ hI _ hd => by
      obtain ⟨m, hI⟩ := hI
      exact ⟨m + 1, hI.deliver hrep hd⟩

theorem accept_opportunityTimes {now : Nat} {contents : Bytes} {env : Env}
    (h : q.accept now contents env = .ok q') : q'.opportunityTimes = q.opportunityTimes := by
  obtain ⟨_, _, _, drops, -, -, -, hdrops, rfl⟩ := accept_eq_ok h
  rcases hdrops with rfl | ⟨t, n, b, rfl⟩ <;> simp [opportunityTimes]

theorem HasUsed.call (hrep : tr.repeats = true) {c : LinkCall} {written : List Bytes}
    (h : HasUsed packetQueue b n q) (hc : q.call world c = .ok (written, q')) :
    ∃ m, HasUsed packetQueue b m q' := by
  cases called_of_call hc with
  | readPacket _ hr ha =>
      obtain ⟨m, hm⟩ := h.rationalize hrep hr
      exact ⟨m, hm.of_same (accept_cursor ha) (accept_opportunityTimes ha)⟩
  | waitTime hr => exact h.rationalize hrep hr
  | writePackets _ heq =>
      subst heq
      exact ⟨n, h.of_same rfl rfl⟩

theorem HasUsed.run (hrep : tr.repeats = true) : ∀ {calls : List LinkCall} {n : Nat}
    {q q' : LinkQueue tr Q} {written : List Bytes}, HasUsed packetQueue b n q →
    LinkQueue.run world calls q = .ok (written, q') → ∃ m, HasUsed packetQueue b m q'
  | [], n, _, _, _, h, hrun => by
      cases hrun
      exact ⟨n, h⟩
  | c :: calls, n, _, _, _, h, hrun => by
      obtain ⟨⟨w, q₁⟩, hc, ⟨w', q₂⟩, hrest, hout⟩ := run_cons_eq_ok.mp hrun
      cases hout
      obtain ⟨m, hm⟩ := h.call hrep hc
      exact HasUsed.run hrep hm hrest

end

/-- **When a trace file gives a sane schedule.** For a file that the constructor
accepts, repeated, and any base timestamp: the opportunities never decrease if
and only if, computed without bounds, the first of them and the last of the
`2^20` lie between the same two multiples of `2^64`. These opportunities are
what every run of the link uses, in this order. -/
theorem never_decrease_iff (filename text : Bytes) (tr : Trace)
    (hfile : readTrace filename text true = .ok tr) (b : Nat) {Q : Type} (packetQueue : Q) :
    (NeverDecrease tr packetQueue b ↔
      tr.scheduled b (2 ^ 20 - 1) / 2 ^ 64 = tr.scheduled b 0 / 2 ^ 64) ∧
    ∀ (_ : AbstractPacketQueue Q) (world : Nat → Env) (calls : List LinkCall)
      (written : List Bytes) (q : LinkQueue tr Q),
      LinkQueue.run world calls (initial tr packetQueue b) = .ok (written, q) →
      ∃ n, q.opportunityTimes = (List.range n).map (opportunity tr packetQueue b) ∧
        q.nextDeliveryTime = opportunity tr packetQueue b n := by
  obtain ⟨hload, hrep⟩ := readTrace_eq_ok.mp hfile
  have hlt := (loadSchedule_spec hload .nil (by simp)).2
  refine ⟨neverDecrease_iff hrep hlt packetQueue b, fun _ world calls written q hrun => ?_⟩
  have hstart : HasUsed packetQueue b 0 (initial tr packetQueue b) := ⟨⟨rfl, rfl, rfl⟩, rfl⟩
  obtain ⟨n, hn⟩ := hstart.run hrep hrun
  refine ⟨n, hn.logged, ?_⟩
  rw [hn.follows.nextDeliveryTime (Trace.time_cursorAt_of_repeats hrep b n).1,
    opportunity_eq hrep]

/-- An opportunity every millisecond, beginning at 1000. -/
theorem never_decrease_every_ms :
    ∃ tr, readTrace (ascii "trace") (ascii "1\n") true = .ok tr ∧
      NeverDecrease tr (InfinitePacketQueue.initial .machine) 1000 := by
  have hload : loadSchedule (ascii "trace") (lines (ascii "1\n")) [] = .ok [1] := by decide +kernel
  have hfile : readTrace (ascii "trace") (ascii "1\n") true
      = .ok ⟨[1], true, by simp, by simp, by decide⟩ := readTrace_eq_ok.mpr ⟨hload, rfl⟩
  exact ⟨_, hfile, (never_decrease_iff (ascii "trace") (ascii "1\n") _ hfile 1000
    (InfinitePacketQueue.initial .machine)).1.mpr (by decide)⟩

/-- A negative number in the second line: the file is accepted, and the second
opportunity is before the first. -/
theorem negative_line_goes_back :
    ∃ tr, readTrace (ascii "trace") (ascii "5\n-1\n") true = .ok tr ∧
      opportunity tr (InfinitePacketQueue.initial .machine) 1000 0 = 1005 ∧
      opportunity tr (InfinitePacketQueue.initial .machine) 1000 1 = 999 ∧
      ¬ NeverDecrease tr (InfinitePacketQueue.initial .machine) 1000 := by
  have hload : loadSchedule (ascii "trace") (lines (ascii "5\n-1\n")) [] = .ok [5, 2 ^ 64 - 1] := by
    decide +kernel
  let tr : Trace := ⟨[5, 2 ^ 64 - 1], true, by simp, by simp, by decide⟩
  have hfirst : opportunity tr (InfinitePacketQueue.initial .machine) 1000 0 = 1005 := by decide +kernel
  have hsecond : opportunity tr (InfinitePacketQueue.initial .machine) 1000 1 = 999 := by decide +kernel
  refine ⟨tr, readTrace_eq_ok.mpr ⟨hload, rfl⟩, hfirst, hsecond, fun h => ?_⟩
  have hle := h 0 (by decide)
  rw [hfirst, hsecond] at hle
  exact absurd hle (by decide)

end LinkQueue

end Mahimahi
