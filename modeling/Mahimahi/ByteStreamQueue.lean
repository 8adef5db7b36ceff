import Mahimahi.Machine
import Mahimahi.Ring
import Mahimahi.Run

/-!
# Byte streams through a ring

`ByteStreamQueue` keeps the bytes between a reader and a writer in a ring, of
which one place stays free, and moves what lies in one piece: up to the end
of the buffer at most. What is queued is a window of the ring
(`ByteStreamQueue.contents`); a push writes behind the window and a pop moves
its front, whatever part of the piece the descriptor takes (`push_eq`,
`pop_eq`). The indices are `size_t`, so their differences wrap.
-/

namespace Mahimahi

structure ByteStreamQueue where
  buffer : Bytes
  nextByteToPush : Nat
  nextByteToPop : Nat
  deriving DecidableEq, Repr

namespace ByteStreamQueue

/-- `std::string::max_size()`: no string has more bytes than a `ptrdiff_t` can
count. -/
def maxSize : Nat := 2 ^ 63 - 1

/-- The constructor. -/
def create (size : Nat) : Except Fault ByteStreamQueue := do
  if maxSize < size then throw (.runtimeError "basic_string::_M_create")
  assertThat (size > 1) "size > 1"
  return ⟨List.replicate size 0, 0, 0⟩

def availableToPop (q : ByteStreamQueue) : Nat :=
  u64 (sub64 q.nextByteToPush q.nextByteToPop +
    if q.nextByteToPop > q.nextByteToPush then q.buffer.length else 0)

def availableToPush (q : ByteStreamQueue) : Nat :=
  u64 (sub64 (sub64 q.nextByteToPop q.nextByteToPush) 1 +
    if q.nextByteToPop > q.nextByteToPush then 0 else q.buffer.length)

def spaceAvailable (q : ByteStreamQueue) : Bool := q.availableToPush > 0

def nonEmpty (q : ByteStreamQueue) : Bool := q.availableToPop > 0

/-- How much `push` asks the descriptor for. -/
def contiguousSpaceToPush (q : ByteStreamQueue) : Nat :=
  if u64 (q.nextByteToPush + q.availableToPush) ≥ q.buffer.length then
    sub64 q.buffer.length q.nextByteToPush
  else q.availableToPush

/-- How much `pop` offers the descriptor. -/
def contiguousSpaceToPop (q : ByteStreamQueue) : Nat :=
  if u64 (q.nextByteToPop + q.availableToPop) ≥ q.buffer.length then
    sub64 q.buffer.length q.nextByteToPop
  else q.availableToPop

/-- `memcpy( &buffer_.at( i ), chunk )`. -/
def memcpy (i : Nat) (chunk buffer : Bytes) : Except Fault Bytes :=
  if buffer.length ≤ i then .error .outOfRange
  else if buffer.length < i + chunk.length then .error .outOfBounds
  else .ok (Ring.overwrite buffer i chunk)

inductive Result where
  | success
  | endOfFile
  deriving DecidableEq, Repr

/-- `push`, where the descriptor returns `newChunk`. -/
def push (newChunk : Bytes) (q : ByteStreamQueue) : Except Fault (Result × ByteStreamQueue) := do
  assertThat q.spaceAvailable "space_available()"
  assertThat (q.contiguousSpaceToPush > 0) "contiguous_space_to_push > 0"
  if newChunk.isEmpty then return (.endOfFile, q)
  assertThat (newChunk.length ≤ sub64 q.buffer.length q.nextByteToPush)
    "new_chunk.size() <= buffer_.size() - next_byte_to_push"
  let buffer ← memcpy q.nextByteToPush newChunk q.buffer
  let next := u64 (q.nextByteToPush + newChunk.length)
  assertThat (next ≤ buffer.length) "next_byte_to_push <= buffer_.size()"
  let q := { q with
    buffer := buffer, nextByteToPush := if next = buffer.length then 0 else next }
  assertThat q.nonEmpty "non_empty()"
  return (.success, q)

/-- `pop`, where the descriptor takes `n` of the bytes that it is offered; the
bytes are returned. -/
def pop (n : Nat) (q : ByteStreamQueue) : Except Fault (Bytes × ByteStreamQueue) := do
  assertThat q.nonEmpty "non_empty()"
  let endOfPop := q.nextByteToPop + q.contiguousSpaceToPop
  if q.buffer.length < endOfPop then throw .outOfBounds
  assertThat (endOfPop ≥ q.nextByteToPop) "end_of_pop >= pop_iterator"
  if endOfPop ≤ q.nextByteToPop then throw (.runtimeError "nothing to write")
  let next := q.nextByteToPop + n
  assertThat (next ≤ q.buffer.length) "next_byte_to_pop <= buffer_.size()"
  return ((q.buffer.drop q.nextByteToPop).take n,
    { q with nextByteToPop := if next = q.buffer.length then 0 else next })

/-- The places that hold no byte, but for the one that stays free. -/
def Free (q : ByteStreamQueue) (i : Nat) : Prop :=
  Ring.InWindow q.buffer.length q.nextByteToPush q.availableToPush i

/-- The places that hold a byte. -/
def Filled (q : ByteStreamQueue) (i : Nat) : Prop :=
  Ring.InWindow q.buffer.length q.nextByteToPop q.availableToPop i

/-! ## The queue in the ring -/

/-- What the indices may be. -/
structure Valid (q : ByteStreamQueue) : Prop where
  size : 1 < q.buffer.length
  maxSize : q.buffer.length ≤ maxSize
  push_lt : q.nextByteToPush < q.buffer.length
  pop_lt : q.nextByteToPop < q.buffer.length

/-- How many bytes are queued. -/
def count (q : ByteStreamQueue) : Nat :=
  if q.nextByteToPop ≤ q.nextByteToPush then q.nextByteToPush - q.nextByteToPop
  else q.nextByteToPush + q.buffer.length - q.nextByteToPop

/-- The bytes that are queued. -/
def contents (q : ByteStreamQueue) : Bytes := Ring.window q.buffer q.nextByteToPop q.count

variable {q : ByteStreamQueue} {size n : Nat} {chunk : Bytes}

theorem count_lt (h : q.Valid) : q.count < q.buffer.length := by
  have := h.push_lt
  have := h.pop_lt
  unfold count
  split <;> omega

theorem availableToPop_eq (h : q.Valid) : q.availableToPop = q.count := by
  have := h.push_lt
  have := h.pop_lt
  have := h.maxSize
  unfold maxSize at this
  unfold availableToPop count u64 sub64
  split_ifs <;> omega

theorem availableToPush_eq (h : q.Valid) : q.availableToPush = q.buffer.length - 1 - q.count := by
  have := h.push_lt
  have := h.pop_lt
  have := h.maxSize
  unfold maxSize at this
  unfold availableToPush count u64 sub64
  split_ifs <;> omega

/-- A push stops at the end of the buffer. -/
theorem contiguousSpaceToPush_eq (h : q.Valid) : q.contiguousSpaceToPush
    = min (q.buffer.length - 1 - q.count) (q.buffer.length - q.nextByteToPush) := by
  have := h.push_lt
  have := h.maxSize
  unfold maxSize at this
  rw [contiguousSpaceToPush, availableToPush_eq h, u64_of_lt (by omega), sub64_of_le (by omega)]
  split <;> omega

theorem contiguousSpaceToPop_eq (h : q.Valid) : q.contiguousSpaceToPop
    = min q.count (q.buffer.length - q.nextByteToPop) := by
  have := h.pop_lt
  have := count_lt h
  have := h.maxSize
  unfold maxSize at this
  rw [contiguousSpaceToPop, availableToPop_eq h, u64_of_lt (by omega), sub64_of_le (by omega)]
  split <;> omega

theorem push_eq_mod (h : q.Valid) :
    q.nextByteToPush = (q.nextByteToPop + q.count) % q.buffer.length := by
  have := h.push_lt
  have := h.pop_lt
  have := count_lt h
  rw [Ring.mod_of_lt_two_mul (by omega)]
  unfold count
  split_ifs <;> omega

theorem length_contents (h : q.Valid) : q.contents.length = q.count :=
  Ring.length_window (Nat.le_of_lt (count_lt h))

/-! ## What the operations do -/

/-- The queue that the constructor makes. -/
theorem create_ok (h : create size = .ok q) :
    q.Valid ∧ q.contents = [] ∧ q.buffer.length = size := by
  rw [create] at h
  split at h
  · cases h
  · next hsize =>
      simp only [pure_eq_ok, bind_eq_ok, assertThat_eq_ok, decide_eq_true_eq] at h
      obtain ⟨-, hpos, hq⟩ := h
      cases hq
      have hlen : (List.replicate size (0 : UInt8)).length = size := List.length_replicate
      refine ⟨⟨?_, ?_, ?_, ?_⟩, rfl, hlen⟩ <;> simp only [hlen] <;> omega

theorem push_nil (h : q.Valid) (hspace : q.spaceAvailable = true) :
    push [] q = .ok (.endOfFile, q) := by
  have hpush := h.push_lt
  have havailable : q.availableToPush > 0 := of_decide_eq_true hspace
  rw [availableToPush_eq h] at havailable
  have hpos : q.contiguousSpaceToPush > 0 := by
    rw [contiguousSpaceToPush_eq h]
    omega
  simp [push, hspace, hpos]

/-- The queue after a push. -/
def pushed (chunk : Bytes) (q : ByteStreamQueue) : ByteStreamQueue :=
  { q with
    buffer := Ring.overwrite q.buffer q.nextByteToPush chunk
    nextByteToPush :=
      if q.nextByteToPush + chunk.length = q.buffer.length then 0
      else q.nextByteToPush + chunk.length }

/-- The queue after a pop. -/
def popped (n : Nat) (q : ByteStreamQueue) : ByteStreamQueue :=
  { q with
    nextByteToPop :=
      if q.nextByteToPop + n = q.buffer.length then 0 else q.nextByteToPop + n }

theorem valid_pushed (h : q.Valid) (hchunk : chunk.length ≤ q.contiguousSpaceToPush) :
    (q.pushed chunk).Valid ∧ (q.pushed chunk).count = q.count + chunk.length := by
  rw [contiguousSpaceToPush_eq h] at hchunk
  have hpush := h.push_lt
  have hpop := h.pop_lt
  have hcount := count_lt h
  have hlen : (q.pushed chunk).buffer.length = q.buffer.length := Ring.length_overwrite (by omega)
  refine ⟨⟨hlen ▸ h.size, hlen ▸ h.maxSize, ?_, hlen ▸ h.pop_lt⟩, ?_⟩
  · rw [hlen]
    simp only [pushed]
    split <;> omega
  · unfold count at hcount hchunk ⊢
    rw [hlen]
    simp only [pushed]
    split_ifs at * <;> omega

/-- A push writes the bytes that have been read behind the queued ones, into
free places. -/
theorem push_eq (h : q.Valid) (hspace : q.spaceAvailable = true) (hne : chunk ≠ [])
    (hchunk : chunk.length ≤ q.contiguousSpaceToPush) :
    push chunk q = .ok (.success, q.pushed chunk) ∧
      (q.pushed chunk).contents = q.contents ++ chunk ∧
      ∀ i, ¬ q.Free i → (q.pushed chunk).buffer[i]? = q.buffer[i]? := by
  have hlt := h.push_lt
  have hcount := count_lt h
  have hmax := h.maxSize
  have hpos : 0 < chunk.length := List.length_pos_iff.mpr hne
  obtain ⟨hvalid, hcount'⟩ := valid_pushed h hchunk
  have hcontiguous : q.contiguousSpaceToPush > 0 := by omega
  rw [contiguousSpaceToPush_eq h] at hchunk
  have hfits : q.nextByteToPush + chunk.length ≤ q.buffer.length := by omega
  have hlen := Ring.length_overwrite hfits
  refine ⟨?_, ?_, fun i hi => ?_⟩
  · have hempty : chunk.isEmpty = false := by simpa using hne
    have hcopy : memcpy q.nextByteToPush chunk q.buffer
        = .ok (Ring.overwrite q.buffer q.nextByteToPush chunk) := by
      rw [memcpy, if_neg (by omega), if_neg (by omega)]
    have hnext : u64 (q.nextByteToPush + chunk.length) = q.nextByteToPush + chunk.length :=
      u64_of_lt (by unfold maxSize at hmax; omega)
    have hroom : chunk.length ≤ sub64 q.buffer.length q.nextByteToPush := by
      rw [sub64_of_le (by omega)]
      omega
    have hnonEmpty : (q.pushed chunk).nonEmpty = true := by
      rw [nonEmpty, availableToPop_eq hvalid, hcount']
      exact decide_eq_true (by omega)
    rw [pushed] at hnonEmpty
    simp [push, hspace, hcontiguous, hempty, hroom, hcopy, hnext, hlen, hfits, hnonEmpty, pushed]
  · rw [contents, hcount']
    exact Ring.window_push h.pop_lt (by omega) (push_eq_mod h) hfits
  · refine Ring.getElem?_overwrite hfits ?_
    by_contra hin
    refine hi ⟨i - q.nextByteToPush, ?_, ?_⟩
    · rw [availableToPush_eq h]
      omega
    · rw [Nat.mod_eq_of_lt (by omega)]
      omega

theorem valid_popped (h : q.Valid) (hn : n ≤ q.contiguousSpaceToPop) :
    (q.popped n).Valid ∧ (q.popped n).count = q.count - n := by
  rw [contiguousSpaceToPop_eq h] at hn
  have hpush := h.push_lt
  have hpop := h.pop_lt
  have hcount := count_lt h
  refine ⟨⟨h.size, h.maxSize, h.push_lt, ?_⟩, ?_⟩
  · simp only [popped]
    split <;> omega
  · unfold count at hcount hn ⊢
    simp only [popped]
    split_ifs at * <;> omega

/-- A pop reads the front of the queued bytes. -/
theorem pop_eq (h : q.Valid) (hnonEmpty : q.nonEmpty = true) (hn : n ≤ q.contiguousSpaceToPop) :
    pop n q = .ok (q.contents.take n, q.popped n) ∧
      (q.popped n).contents = q.contents.drop n := by
  have hlt := h.pop_lt
  have hcount := count_lt h
  have havailable : q.availableToPop > 0 := of_decide_eq_true hnonEmpty
  rw [availableToPop_eq h] at havailable
  obtain ⟨hvalid, hcount'⟩ := valid_popped h hn
  have hcontiguous := contiguousSpaceToPop_eq h
  have hle : n ≤ q.count := by omega
  obtain ⟨htake, hdrop⟩ := Ring.window_pop q.nextByteToPop hle (Nat.le_of_lt hcount)
  constructor
  · have hend : ¬ q.buffer.length < q.nextByteToPop + q.contiguousSpaceToPop := by omega
    have hsome : ¬ q.nextByteToPop + q.contiguousSpaceToPop ≤ q.nextByteToPop := by omega
    have hroom : q.nextByteToPop + n ≤ q.buffer.length := by omega
    rw [contents, htake, Ring.window_eq_take_drop hroom]
    simp [pop, hnonEmpty, hend, hsome, hroom, popped]
  · rw [contents, contents, hdrop, hcount', ← Ring.window_mod q.buffer (q.nextByteToPop + n)]
    have hmod : (q.nextByteToPop + n) % q.buffer.length = (q.popped n).nextByteToPop := by
      rw [Ring.mod_of_lt_two_mul (by omega)]
      simp only [popped]
      split_ifs <;> omega
    rw [hmod]
    rfl

theorem filled_of_lt {i : Nat} (h : q.Valid) (hle : q.nextByteToPop ≤ i)
    (hlt : i < q.nextByteToPop + q.contiguousSpaceToPop) : q.Filled i := by
  rw [contiguousSpaceToPop_eq h] at hlt
  refine ⟨i - q.nextByteToPop, ?_, ?_⟩
  · rw [availableToPop_eq h]
    omega
  · rw [Nat.mod_eq_of_lt (by omega)]
    omega

/-! ## Runs -/

/-- A queue between two descriptors: what has been pushed and popped so far,
and the fault that has ended it. -/
structure Stream where
  queue : ByteStreamQueue
  pushed : Bytes
  popped : Bytes
  fault : Option Fault

def Stream.start (queue : ByteStreamQueue) : Stream := ⟨queue, [], [], none⟩

/-- The calls, with what the descriptors do in them. -/
inductive Event where
  | push (newChunk : Bytes)
  | pop (n : Nat)
  deriving DecidableEq, Repr

/-- A push is called when there is space and reads no more than it asks for; a
pop is called when there is a byte and writes one at least. -/
def step (s : Stream) : Event → Option Stream
  | .push newChunk =>
      if s.fault = none ∧ s.queue.spaceAvailable ∧ newChunk.length ≤ s.queue.contiguousSpaceToPush then
        match s.queue.push newChunk with
        | .ok (_, queue) => some { s with queue := queue, pushed := s.pushed ++ newChunk }
        | .error e => some { s with fault := some e }
      else none
  | .pop n =>
      if s.fault = none ∧ s.queue.nonEmpty ∧ 0 < n ∧ n ≤ s.queue.contiguousSpaceToPop then
        match s.queue.pop n with
        | .ok (bytes, queue) => some { s with queue := queue, popped := s.popped ++ bytes }
        | .error e => some { s with fault := some e }
      else none

/-- What an event touches: a push writes free places only, and none at an end
of file; a pop reads filled places only. -/
def Inside (s s' : Stream) : Event → Prop
  | .push newChunk => (∀ i, ¬ s.queue.Free i → s'.queue.buffer[i]? = s.queue.buffer[i]?) ∧
      (newChunk = [] → s' = s)
  | .pop _ => s'.queue.buffer = s.queue.buffer ∧ ∀ i, s.queue.nextByteToPop ≤ i →
      i < s.queue.nextByteToPop + s.queue.contiguousSpaceToPop → s.queue.Filled i

/-- What the queue promises between two calls. -/
structure Fifo (size : Nat) (s : Stream) : Prop where
  fault : s.fault = none
  order : s.popped <+: s.pushed
  toPop : s.queue.availableToPop = s.pushed.length - s.popped.length
  capacity : s.queue.availableToPop + s.queue.availableToPush = size - 1
  push_lt : s.queue.nextByteToPush < size
  pop_lt : s.queue.nextByteToPop < size
  inside : ∀ e s', step s e = some s' → Inside s s' e

/-- The queue between two calls: what has been pushed is what has been popped
and what is queued. -/
structure Flows (size : Nat) (s : Stream) : Prop where
  valid : s.queue.Valid
  size : s.queue.buffer.length = size
  fault : s.fault = none
  flow : s.pushed = s.popped ++ s.queue.contents

variable {s s' : Stream} {e : Event}

/-- A step moves bytes from one place of the account to the next. -/
theorem step_flows (h : Flows size s) (hstep : step s e = some s') :
    Flows size s' ∧ Inside s s' e := by
  obtain ⟨hvalid, hsize, hfault, hflow⟩ := h
  cases e with
  | push chunk =>
      simp only [step, Option.ite_none_right_eq_some] at hstep
      obtain ⟨⟨-, hspace, hchunk⟩, hstep⟩ := hstep
      by_cases hne : chunk = []
      · subst hne
        rw [push_nil hvalid hspace] at hstep
        obtain rfl : s = s' := by simpa using hstep
        exact ⟨⟨hvalid, hsize, hfault, hflow⟩, fun _ _ => rfl, fun _ => rfl⟩
      · obtain ⟨hpush, hcontents, hfree⟩ := push_eq hvalid hspace hne hchunk
        have hvalid' := (valid_pushed hvalid hchunk).1
        rw [hpush] at hstep
        cases hstep
        refine ⟨⟨hvalid', ?_, hfault, ?_⟩, hfree, fun h => absurd h hne⟩
        · rw [contiguousSpaceToPush_eq hvalid] at hchunk
          rw [← hsize]
          exact Ring.length_overwrite (by have := hvalid.push_lt; omega)
        · rw [hcontents, hflow, List.append_assoc]
  | pop n =>
      simp only [step, Option.ite_none_right_eq_some] at hstep
      obtain ⟨⟨-, hnonEmpty, -, hn⟩, hstep⟩ := hstep
      obtain ⟨hpop, hcontents⟩ := pop_eq hvalid hnonEmpty hn
      rw [hpop] at hstep
      cases hstep
      refine ⟨⟨(valid_popped hvalid hn).1, hsize, hfault, ?_⟩, rfl, fun i => filled_of_lt hvalid⟩
      rw [hcontents, List.append_assoc, List.take_append_drop, hflow]

theorem Flows.fifo (h : Flows size s) : Fifo size s where
  fault := h.fault
  order := by
    rw [h.flow]
    exact List.prefix_append _ _
  toPop := by
    rw [availableToPop_eq h.valid, h.flow, List.length_append, length_contents h.valid]
    omega
  capacity := by
    have := count_lt h.valid
    have := h.size
    rw [availableToPop_eq h.valid, availableToPush_eq h.valid]
    omega
  push_lt := h.size ▸ h.valid.push_lt
  pop_lt := h.size ▸ h.valid.pop_lt
  inside := fun _ _ hstep => (step_flows h hstep).2

/-- **The queue is a bounded first-in, first-out queue.** -/
theorem queue_is_fifo (h : create size = .ok q) (events : List Event) :
    Always step (Fifo size) (.start q) events := by
  obtain ⟨hvalid, hcontents, hsize⟩ := create_ok h
  refine always_of_eachStep (I := Flows size) (G := fun _ _ => True) (fun s => Flows.fifo)
    (fun s e s' hs hstep _ => (step_flows hs hstep).1) ⟨hvalid, hsize, rfl, ?_⟩
    (eachStep_true _ _ _)
  show [] = [] ++ q.contents
  rw [hcontents]
  rfl

/-- A ring of three places: two bytes in, one out, and one in again, which
goes to the place that was free. -/
theorem queue_is_fifo_three : Always step (Fifo 3) (.start ⟨[0, 0, 0], 0, 0⟩)
    [.push [1, 2], .pop 1, .push [3], .pop 1, .push []] :=
  queue_is_fifo rfl _

end ByteStreamQueue

end Mahimahi
