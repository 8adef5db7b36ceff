import Mathlib.Algebra.Order.Floor.Ring
import Mathlib.Data.Rat.Floor
import Mathlib.Algebra.BigOperators.Group.List.Basic
import Mathlib.Tactic.Linarith
import Mathlib.Tactic.Ring
import Mahimahi.ThroughputGraph

/-!
# From rates to a trace

`mm-rate-to-events` reads a rate for each millisecond, in kilobits, and writes the
millisecond at which each packet of 12000 bits can be delivered, which is what the link
reads as its trace. What is left of a millisecond's bits is kept for the next one.

The inner loop takes packets off the reserve while there is a whole one (`printTimes`).
So the reserve is what has come in less what has been printed, and below one packet
(`Conserves`): the number of packets up to any millisecond is the whole part of the bits
up to there (`rate_to_events_conserves`).
-/

namespace Mahimahi

/-! ## Numbers -/

/-- The exponent of a number and what is behind it, if what is there begins with `e`. -/
def exponentOf : Bytes → Option (Int × Bytes)
  | [] => some (0, [])
  | c :: rest =>
      if c = 101 ∨ c = 69 then
        let (negative, rest) :=
          match rest with
          | 45 :: rest => (true, rest)
          | 43 :: rest => (false, rest)
          | _ => (false, rest)
        let digits := rest.takeWhile (isDigitOf 10)
        let exponent : Int := digitsValue 10 digits
        if digits.isEmpty then none
        else some (if negative then - exponent else exponent, rest.dropWhile (isDigitOf 10))
      else some (0, c :: rest)

/-- `looks_like_number`, and the number that the text is. An infinity and a NaN, which look
like numbers too, are not read. -/
def looksLikeNumber (text : Bytes) : Option ℚ := do
  let s := text.dropWhile isSpace
  let (negative, s) :=
    match s with
    | 45 :: rest => (true, rest)
    | 43 :: rest => (false, rest)
    | _ => (false, s)
  let whole := s.takeWhile (isDigitOf 10)
  let (fraction, s) :=
    match s.dropWhile (isDigitOf 10) with
    | 46 :: rest => (rest.takeWhile (isDigitOf 10), rest.dropWhile (isDigitOf 10))
    | s => ([], s)
  if whole.isEmpty ∧ fraction.isEmpty then
    none
  let (exponent, s) ← exponentOf s
  if ¬ s.all isSpace then
    none
  let magnitude : ℚ := digitsValue 10 whole + digitsValue 10 fraction / 10 ^ fraction.length
  return (if negative then - magnitude else magnitude) * 10 ^ exponent

example : looksLikeNumber (ascii " 1.25e1") = some (25 / 2) := by decide +kernel

/-! ## mm-rate-to-events -/

/-- The variables of the script, and what it has printed. -/
structure RateToEvents where
  time : Nat
  reserveBits : ℚ
  output : Bytes

namespace RateToEvents

/-- The bits of a packet. -/
def packetLength : ℚ := 12000

def initial : RateToEvents := ⟨0, 0, []⟩

def hasPacket (s : RateToEvents) : Bool := decide (packetLength ≤ s.reserveBits)

/-- One turn of the inner loop. -/
def printTime (s : RateToEvents) : RateToEvents :=
  { s with
    reserveBits := s.reserveBits - packetLength
    output := s.output ++ (decimal s.time ++ [10]) }

/-- How many packets there are in some bits. -/
def packetsIn (bits : ℚ) : Nat := ⌊bits / packetLength⌋.toNat

/-- One turn of the main loop, for a rate. -/
def processRate (s : RateToEvents) (kilobits : ℚ) : Except Fault RateToEvents := do
  let s := { s with reserveBits := s.reserveBits + 1000 * kilobits }
  -- if reserve has enough bits for a packet, deliver it now
  let s ← loop .diverges (whileDo hasPacket fun s => .ok s.printTime) (packetsIn s.reserveBits + 1) s
  return { s with time := s.time + 1 }

/-- The same for a line. -/
def processLine (s : RateToEvents) (line : Bytes) : Except Fault RateToEvents :=
  match looksLikeNumber line with
  | none => .error (.runtimeErrorWith "Not a number: " (34 :: line ++ [34]))
  | some kilobits => s.processRate kilobits

def processRates (rates : List ℚ) : Except Fault RateToEvents := rates.foldlM processRate initial

/-- The main loop. -/
def processInput (text : Bytes) : Except Fault RateToEvents := (lines text).foldlM processLine initial

/-- Lines that are numbers are rates. -/
theorem foldlM_processLine : ∀ {ls : List Bytes} {rates : List ℚ} (s : RateToEvents),
    ls.map looksLikeNumber = rates.map some → ls.foldlM processLine s = rates.foldlM processRate s
  | [], [], _, _ => rfl
  | [], _ :: _, _, h | _ :: _, [], _, h => by simp at h
  | line :: ls, k :: rates, s, h => by
      obtain ⟨hline, hrest⟩ := List.cons.inj h
      simp only [List.foldlM_cons, processLine, hline]
      cases s.processRate k with
      | error e => rfl
      | ok s' => exact foldlM_processLine s' hrest

/-! ## The inner loop -/

/-- The lines for some times. -/
def timeLines (times : List Nat) : Bytes := times.flatMap fun t => decimal t ++ [10]

/-- The state with `n` packets more printed. -/
def printed (n : Nat) (s : RateToEvents) : RateToEvents :=
  { s with
    reserveBits := s.reserveBits - packetLength * n
    output := s.output ++ timeLines (List.replicate n s.time) }

theorem packetLength_pos : 0 < packetLength := by norm_num [packetLength]

theorem printTime_printed (n : Nat) (s : RateToEvents) : (s.printed n).printTime = s.printed (n + 1) := by
  simp only [printed, printTime, timeLines, List.replicate_succ', List.flatMap_append,
    List.flatMap_singleton, List.append_assoc, RateToEvents.mk.injEq, true_and, and_true]
  push_cast
  ring

theorem packetsIn_sub {bits : ℚ} (h : packetLength ≤ bits) :
    packetsIn (bits - packetLength) < packetsIn bits := by
  have hone : (1 : ℚ) ≤ bits / packetLength := (one_le_div packetLength_pos).mpr h
  have hfloor : 1 ≤ ⌊bits / packetLength⌋ := Int.le_floor.mpr (by exact_mod_cast hone)
  have hsub : (bits - packetLength) / packetLength = bits / packetLength - 1 := by
    rw [sub_div, div_self packetLength_pos.ne']
  rw [packetsIn, packetsIn, hsub, Int.floor_sub_one]
  omega

/-- **The inner loop** ends, and leaves less than a packet. -/
theorem printTimes {s : RateToEvents} (h : 0 ≤ s.reserveBits) :
    ∃ r, loop Fault.diverges (whileDo hasPacket fun s => .ok s.printTime) (packetsIn s.reserveBits + 1) s
        = .ok r ∧
      ∃ n, r = s.printed n ∧ 0 ≤ r.reserveBits ∧ r.reserveBits < packetLength := by
  refine loop_total Fault.diverges (I := fun u => ∃ n, u = s.printed n ∧ 0 ≤ u.reserveBits)
    (μ := fun u => packetsIn u.reserveBits) ?_ ⟨0, by simp [printed, timeLines], h⟩
    (Nat.lt_succ_self _)
  rintro u ⟨n, rfl, hnonneg⟩
  by_cases hpacket : packetLength ≤ (s.printed n).reserveBits
  · exact .inl ⟨(s.printed n).printTime, whileDo_again.mpr ⟨decide_eq_true hpacket, rfl⟩,
      ⟨n + 1, printTime_printed n s, sub_nonneg.mpr hpacket⟩, packetsIn_sub hpacket⟩
  · exact .inr ⟨_, whileDo_leave.mpr ⟨decide_eq_false hpacket, rfl⟩, n, rfl, hnonneg,
      lt_of_not_ge hpacket⟩

/-! ## The main loop -/

/-- The whole packets that the rates up to a millisecond make. -/
def deliverable (rates : List ℚ) (t : Nat) : Int :=
  ⌊1000 * (rates.take (t + 1)).sum / packetLength⌋

/-- After the rates, the times have been printed: what has come in is in them, or in the
reserve, and that is less than a packet. -/
structure Conserves (rates : List ℚ) (times : List Nat) (s : RateToEvents) : Prop where
  time : s.time = rates.length
  output : s.output = timeLines times
  reserve : s.reserveBits = 1000 * rates.sum - packetLength * times.length
  reserve_nonneg : 0 ≤ s.reserveBits
  reserve_lt : s.reserveBits < packetLength
  sorted : times.Pairwise (· ≤ ·)
  lt_time : ∀ t ∈ times, t < s.time
  count : ∀ t, (times.countP (· ≤ t) : Int) = deliverable rates t

theorem conserves_initial : Conserves [] [] initial where
  time := rfl
  output := rfl
  reserve := by simp [initial]
  reserve_nonneg := le_refl _
  reserve_lt := packetLength_pos
  sorted := .nil
  lt_time := by simp
  count t := by simp [deliverable]

variable {rates : List ℚ} {times : List Nat} {s : RateToEvents} {k : ℚ}

/-- A count of packets is the whole part of the bits, if less than a packet is left. -/
theorem floor_of_reserve {bits : ℚ} {n : Nat} (hnonneg : 0 ≤ bits - packetLength * n)
    (hlt : bits - packetLength * n < packetLength) : (n : Int) = ⌊bits / packetLength⌋ := by
  refine (Int.floor_eq_iff.mpr ⟨?_, ?_⟩).symm
  · rw [le_div_iff₀ packetLength_pos]
    push_cast
    linarith
  · rw [div_lt_iff₀ packetLength_pos]
    push_cast
    linarith

theorem countP_append_replicate (times : List Nat) (n time t : Nat) :
    (times ++ List.replicate n time).countP (· ≤ t)
      = times.countP (· ≤ t) + if time ≤ t then n else 0 := by
  rw [List.countP_append, List.countP_replicate]
  simp

/-- Before the millisecond at hand nothing is added to the count, and from there on the
count is that of all packets. -/
theorem Conserves.count_step {n : Nat} (h : Conserves rates times s)
    (hnonneg : 0 ≤ 1000 * (rates ++ [k]).sum - packetLength * (times.length + n : Nat))
    (hlt : 1000 * (rates ++ [k]).sum - packetLength * (times.length + n : Nat) < packetLength) (t : Nat) :
    ((times ++ List.replicate n s.time).countP (· ≤ t) : Int) = deliverable (rates ++ [k]) t := by
  rw [countP_append_replicate]
  by_cases ht : s.time ≤ t
  · have hall : times.countP (· ≤ t) = times.length := by
      rw [List.countP_eq_length]
      intro u hu
      have := h.lt_time u hu
      exact decide_eq_true (by omega)
    have htake : (rates ++ [k]).take (t + 1) = rates ++ [k] := by
      refine List.take_of_length_le ?_
      have := h.time
      simp only [List.length_append, List.length_singleton]
      omega
    rw [if_pos ht, hall, deliverable, htake]
    exact floor_of_reserve hnonneg hlt
  · have htake : (rates ++ [k]).take (t + 1) = rates.take (t + 1) := by
      refine List.take_append_of_le_length ?_
      have := h.time
      omega
    rw [if_neg ht, deliverable, htake]
    exact h.count t

theorem Conserves.step (h : Conserves rates times s) (hk : 0 ≤ k) :
    ∃ times' s', s.processRate k = .ok s' ∧ Conserves (rates ++ [k]) times' s' := by
  have hreserve : 0 ≤ s.reserveBits + 1000 * k := by
    have := h.reserve_nonneg
    positivity
  obtain ⟨-, hloop, n, rfl, hnonneg, hlt⟩ :=
    printTimes (s := { s with reserveBits := s.reserveBits + 1000 * k }) hreserve
  have hleft : s.reserveBits + 1000 * k - packetLength * n
      = 1000 * (rates ++ [k]).sum - packetLength * (times.length + n : Nat) := by
    rw [h.reserve, List.sum_append, List.sum_singleton]
    push_cast
    ring
  simp only [printed, hleft] at hnonneg hlt
  refine ⟨times ++ List.replicate n s.time, _, by rw [processRate, hloop]; rfl, ?_⟩
  refine ⟨?_, ?_, ?_, ?_, ?_, ?_, ?_, h.count_step hnonneg hlt⟩
  · simp [printed, h.time]
  · simp [printed, h.output, timeLines]
  · simp [printed, hleft]
  · rw [← hleft] at hnonneg
    exact hnonneg
  · rw [← hleft] at hlt
    exact hlt
  · rw [List.pairwise_append]
    refine ⟨h.sorted, List.pairwise_replicate.mpr (.inr (le_refl _)), fun t ht u hu => ?_⟩
    have := h.lt_time t ht
    have := List.eq_of_mem_replicate hu
    omega
  · intro t ht
    show t < s.time + 1
    rcases List.mem_append.mp ht with ht | ht
    · have := h.lt_time t ht
      omega
    · have := List.eq_of_mem_replicate ht
      omega

theorem conserves_processRates (rates : List ℚ) (h : ∀ k ∈ rates, 0 ≤ k) :
    ∃ times s, processRates rates = .ok s ∧ Conserves rates times s := by
  induction rates using List.reverseRecOn with
  | nil => exact ⟨[], initial, rfl, conserves_initial⟩
  | append_singleton rates k ih =>
      simp only [List.mem_append, List.mem_singleton, or_imp, forall_and, forall_eq] at h
      obtain ⟨times, s, hs, hconserves⟩ := ih h.1
      obtain ⟨times', s', hs', hconserves'⟩ := hconserves.step h.2
      refine ⟨times', s', ?_, hconserves'⟩
      rw [processRates] at hs
      rw [processRates, List.foldlM_append, hs]
      simpa using hs'

/-- **Bits are conserved.** The times are printed in order, those up to any millisecond are
as many as the rates up to there make whole packets, and after each rate less than a packet
is in reserve. -/
theorem rate_to_events_conserves (rates : List ℚ) (h : ∀ k ∈ rates, 0 ≤ k) :
    ∃ s times, processRates rates = .ok s ∧
      (∀ text, (lines text).map looksLikeNumber = rates.map some → processInput text = .ok s) ∧
      s.output = timeLines times ∧ times.Pairwise (· ≤ ·) ∧
      (∀ t, (times.countP (· ≤ t) : Int) = deliverable rates t) ∧
      ∀ n, ∃ s', processRates (rates.take n) = .ok s' ∧
        0 ≤ s'.reserveBits ∧ s'.reserveBits < packetLength := by
  obtain ⟨times, s, hs, hconserves⟩ := conserves_processRates rates h
  refine ⟨s, times, hs, fun text htext => ?_, hconserves.output, hconserves.sorted, hconserves.count,
    fun n => ?_⟩
  · rw [processInput, foldlM_processLine initial htext]
    exact hs
  · obtain ⟨_, s', hs', hconserves'⟩ :=
      conserves_processRates (rates.take n) fun k hk => h k (List.mem_of_mem_take hk)
    exact ⟨s', hs', hconserves'.reserve_nonneg, hconserves'.reserve_lt⟩

/-- Eighteen kilobits and then six and a half: a packet in each millisecond. -/
theorem rate_to_events_conserves_two :
    ∃ s times, processInput (ascii "18\n6.5\n") = .ok s ∧ s.output = timeLines times ∧
      times.countP (· ≤ 0) = 1 ∧ times.countP (· ≤ 1) = 2 := by
  obtain ⟨s, times, -, htext, houtput, -, hcount, -⟩ :=
    rate_to_events_conserves [18, 13 / 2] (by decide +kernel)
  have hzero : deliverable [18, 13 / 2] 0 = 1 := by decide +kernel
  have hone : deliverable [18, 13 / 2] 1 = 2 := by decide +kernel
  have hcount₀ := hcount 0
  have hcount₁ := hcount 1
  rw [hzero] at hcount₀
  rw [hone] at hcount₁
  exact ⟨s, times, htext _ (by decide +kernel), houtput, by exact_mod_cast hcount₀,
    by exact_mod_cast hcount₁⟩

end RateToEvents

end Mahimahi
