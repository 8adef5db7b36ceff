import Mahimahi.Loop
import Mahimahi.Outcome
import Mahimahi.Poller

/-!
# Reading and writing a descriptor

What the system calls answer is an argument of the functions: `none` where the
call fails, else what `::read` finds or how much `::write` takes. The kernel moves
no more than it is asked to, so an answer counts up to there.

`FileDescriptor.write` goes on until the whole buffer has been taken. `writeAll_ends`
says what it comes to: all of the buffer, written in order in pieces that are not
empty, or the fault of a call, with a front of the buffer written.
-/

namespace Mahimahi

namespace FileDescriptor

/-- `BUFFER_SIZE`, the maximum size of a read. -/
def bufferSize : Nat := 1024 * 1024

/-- `read( limit )`. -/
def read (limit : Nat) (answer : Option Bytes) (fd : FileDescriptor) :
    Except Fault (Bytes × FileDescriptor) :=
  match answer with
  | none => .error (.systemError "read")
  | some found =>
      let contents := found.take (min bufferSize limit)
      .ok (contents, fd.afterRead contents)

/-- `write( begin, end )`: how many of the bytes have been written. -/
def writeSome (bytes : Bytes) (answer : Option Nat) (fd : FileDescriptor) :
    Except Fault (Nat × FileDescriptor) :=
  if bytes.isEmpty then .error (.runtimeError "nothing to write")
  else
    match answer with
    | none => .error (.systemError "write")
    | some n =>
        if min n bytes.length = 0 then .error (.runtimeError "write returned 0")
        else .ok (min n bytes.length, fd.afterWrites 1)

/-- What the system calls can do to a caller that has something to write. -/
inductive CallFault : Fault → Prop where
  | read : CallFault (.systemError "read")
  | write : CallFault (.systemError "write")
  | wroteNothing : CallFault (.runtimeError "write returned 0")

variable {fd fd' : FileDescriptor}

theorem read_outcome (limit : Nat) (answer : Option Bytes) (fd : FileDescriptor) :
    Outcome CallFault (fun r => r.1.length ≤ limit ∧ r.2 = fd.afterRead r.1)
      (fd.read limit answer) := by
  cases answer with
  | none => exact .read
  | some found =>
      refine ⟨?_, rfl⟩
      simp only [List.length_take]
      omega

theorem writeSome_outcome {bytes : Bytes} (hne : bytes ≠ []) (answer : Option Nat)
    (fd : FileDescriptor) :
    Outcome CallFault (fun r => 0 < r.1 ∧ r.1 ≤ bytes.length ∧ r.2 = fd.afterWrites 1)
      (fd.writeSome bytes answer) := by
  simp only [writeSome]
  rw [if_neg (by simpa using hne)]
  cases answer with
  | none => exact .write
  | some n =>
      simp only
      split
      · exact .wroteNothing
      · exact ⟨by omega, by omega, rfl⟩

/-- A call is noticed in the counter, which is 32 bits wide. -/
theorem u32_succ_ne (n : Nat) : n ≠ u32 (n + 1) := by
  unfold u32
  omega

/-! ## Writing all of a buffer -/

/-- The state of the loop: how many calls there have been, the pieces that they have
taken, what is left, and the descriptor. -/
structure Writing where
  calls : Nat
  pieces : List Bytes
  rest : Bytes
  fd : FileDescriptor
  deriving DecidableEq, Repr

/-- One turn: `it = write( it, buffer.end() )`, and the test behind it. -/
def writeTurn (answers : Nat → Option Nat) (w : Writing) : Except Fault (Writing ⊕ Writing) := do
  let (n, fd) ← w.fd.writeSome w.rest (answers w.calls)
  let w' : Writing := ⟨w.calls + 1, w.pieces ++ [w.rest.take n], w.rest.drop n, fd⟩
  return if w'.rest.isEmpty then .inr w' else .inl w'

/-- `write( buffer, true )`, with what the calls answer. -/
def writeAll (buffer : Bytes) (answers : Nat → Option Nat) (fd : FileDescriptor) :
    Except Fault Writing :=
  loop .diverges (writeTurn answers) (buffer.length + 1) ⟨0, [], buffer, fd⟩

/-- What the loop has done: the pieces are a front of the buffer, none of them is empty,
and every call has been counted. -/
structure Written (buffer : Bytes) (fd : FileDescriptor) (w : Writing) : Prop where
  order : w.pieces.flatten ++ w.rest = buffer
  some : ∀ piece ∈ w.pieces, piece ≠ []
  calls : w.pieces.length = w.calls
  fd : w.fd = if w.calls = 0 then fd else fd.afterWrites w.calls

theorem Written.turn {buffer : Bytes} {w : Writing} {n : Nat} (h : Written buffer fd w)
    (hpos : 0 < n) (hle : n ≤ w.rest.length) :
    Written buffer fd ⟨w.calls + 1, w.pieces ++ [w.rest.take n], w.rest.drop n,
      w.fd.afterWrites 1⟩ where
  order := by
    rw [List.flatten_append, List.flatten_singleton, List.append_assoc, List.take_append_drop]
    exact h.order
  some := by
    intro piece hpiece
    rcases List.mem_append.mp hpiece with hpiece | hpiece
    · exact h.some piece hpiece
    · rw [List.mem_singleton.mp hpiece]
      intro hnil
      have := congrArg List.length hnil
      rw [List.length_take, List.length_nil] at this
      omega
  calls := by
    rw [List.length_append, h.calls]
    rfl
  fd := by
    rw [h.fd, if_neg (Nat.succ_ne_zero _)]
    split
    · next hcalls => rw [hcalls]
    · simp only [afterWrites, u32]
      congr 1
      omega

/-- **All of the buffer is written**, or a call fails. -/
theorem writeAll_outcome {buffer : Bytes} (hne : buffer ≠ []) (answers : Nat → Option Nat)
    (fd : FileDescriptor) :
    Outcome CallFault (fun w => Written buffer fd w ∧ w.rest = [] ∧ w.calls ≤ buffer.length)
      (writeAll buffer answers fd) := by
  have hgo : ∀ (n : Nat) (w : Writing), Written buffer fd w → w.rest ≠ [] → w.rest.length < n →
      w.calls + w.rest.length ≤ buffer.length →
      Outcome CallFault (fun w => Written buffer fd w ∧ w.rest = [] ∧ w.calls ≤ buffer.length)
        (loop .diverges (writeTurn answers) n w) := by
    intro n
    induction n with
    | zero => exact fun w _ _ hlt => absurd hlt (Nat.not_lt_zero _)
    | succ n ih =>
        intro w hw hrest hlt hcalls
        have hsome := writeSome_outcome hrest (answers w.calls) w.fd
        rw [loop, writeTurn]
        cases hwrite : w.fd.writeSome w.rest (answers w.calls) with
        | error e => exact hsome.of_error hwrite
        | ok r =>
            obtain ⟨k, fd'⟩ := r
            obtain ⟨hpos, hle, rfl⟩ := hsome.of_ok hwrite
            have hw' := hw.turn hpos hle
            simp only at hle
            have hlen : (w.rest.drop k).length = w.rest.length - k := List.length_drop
            cases hdrop : w.rest.drop k with
            | nil =>
                rw [hdrop] at hw'
                simp only [ok_bind, hdrop, List.isEmpty_nil, if_true, pure_eq_ok]
                refine ⟨hw', rfl, ?_⟩
                simp only
                omega
            | cons b bs =>
                rw [hdrop] at hw' hlen
                simp only [ok_bind, hdrop, List.isEmpty_cons, Bool.false_eq_true, if_false, pure_eq_ok]
                refine ih _ hw' (by simp) ?_ ?_
                · simp only [hlen]
                  omega
                · simp only [hlen]
                  omega
  exact hgo _ _ ⟨rfl, fun _ h => (by cases h), rfl, rfl⟩ hne (Nat.lt_succ_self _) (by simp)

end FileDescriptor

end Mahimahi
