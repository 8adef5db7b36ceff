import Mathlib.Algebra.Group.Int.Defs
import Mathlib.Algebra.GroupWithZero.Nat
import Mathlib.Tactic.TypeStar

/-!
# What the C++ machine adds to a function

Every function of the model that can fail returns `Except Fault`: a failed
`assert`, a thrown exception and a loop that does not end are told apart,
since some properties count all three alike and others do not.

Integers of fixed width are `Nat`s and `Int`s with the reduction written
out (`u32`, `u64`, `i32`). The two `int` counters of the packet queues are
the one place where a property may ask for the exact reading instead, so
the reading is a parameter there (`Arith`).
-/

namespace Mahimahi

/-- `std::string`, as the bytes it holds. -/
abbrev Bytes := List UInt8

/-- The bytes of an ASCII literal. -/
def ascii (s : String) : Bytes := s.toList.map fun c => c.toNat.toUInt8

/-- How a call can fail to return. -/
inductive Fault where
  /-- A failed `assert`; the text is the asserted expression. -/
  | assertion (expr : String)
  /-- `throw runtime_error( text )`. -/
  | runtimeError (text : String)
  /-- `throw runtime_error( text + detail )`. -/
  | runtimeErrorWith (text : String) (detail : Bytes)
  /-- `throw unix_error( attempt )`. -/
  | systemError (attempt : String)
  /-- `std::out_of_range`, thrown by `at` and `substr`. -/
  | outOfRange
  /-- A read beyond the bytes of an object, which the language leaves undefined. -/
  | outOfBounds
  /-- A loop that does not come to an end. -/
  | diverges
  deriving DecidableEq, Repr

/-- `assert( cond )`. -/
def assertThat (cond : Bool) (expr : String) : Except Fault Unit :=
  if cond then .ok () else .error (.assertion expr)

@[simp] theorem assertThat_true (expr : String) : assertThat true expr = .ok () := rfl

@[simp] theorem assertThat_eq_ok {cond : Bool} {expr : String} {u : Unit} :
    assertThat cond expr = .ok u ↔ cond = true := by
  cases cond <;> simp [assertThat]

@[simp] theorem bind_eq_ok {ε α β : Type} {x : Except ε α} {f : α → Except ε β} {b : β} :
    (x >>= f) = .ok b ↔ ∃ a, x = .ok a ∧ f a = .ok b := by
  cases x <;> simp [bind, Except.bind]

@[simp] theorem map_eq_ok {ε α β : Type} {f : α → β} {x : Except ε α} {b : β} :
    (f <$> x) = .ok b ↔ ∃ a, x = .ok a ∧ f a = b := by
  cases x <;> simp [Functor.map, Except.map]

@[simp] theorem ok_bind {ε α β : Type} (a : α) (f : α → Except ε β) :
    ((.ok a : Except ε α) >>= f) = f a := rfl

@[simp] theorem error_bind {ε α β : Type} (e : ε) (f : α → Except ε β) :
    ((.error e : Except ε α) >>= f) = .error e := rfl

@[simp] theorem throw_eq_error {ε α : Type} (e : ε) : (throw e : Except ε α) = .error e := rfl

@[simp] theorem pure_eq_ok {ε α : Type} (a : α) : (pure a : Except ε α) = .ok a := rfl

/-! ## Fixed-width integers -/

/-- Conversion to `uint32_t`. -/
def u32 (n : Nat) : Nat := n % 2 ^ 32

/-- Conversion to `uint64_t`. -/
def u64 (n : Nat) : Nat := n % 2 ^ 64

/-- Conversion to `int`. -/
def i32 (z : Int) : Int := z.bmod (2 ^ 32)

/-- `a - b` on `uint32_t`. -/
def sub32 (a b : Nat) : Nat := if b ≤ a then a - b else 2 ^ 32 - (b - a)

/-- `a - b` on `uint64_t`. -/
def sub64 (a b : Nat) : Nat := if b ≤ a then a - b else 2 ^ 64 - (b - a)

theorem u32_of_lt {n : Nat} (h : n < 2 ^ 32) : u32 n = n := Nat.mod_eq_of_lt h

theorem u64_of_lt {n : Nat} (h : n < 2 ^ 64) : u64 n = n := Nat.mod_eq_of_lt h

theorem sub32_of_le {a b : Nat} (h : b ≤ a) : sub32 a b = a - b := if_pos h

theorem sub64_of_le {a b : Nat} (h : b ≤ a) : sub64 a b = a - b := if_pos h

/-! ## The reading of the queue counters -/

/-- How an `int` counter and an `unsigned int` argument are read: as the
32-bit values they are, or as unbounded integers. -/
inductive Arith where
  | machine
  | exact
  deriving DecidableEq, Repr

namespace Arith

/-- Conversion to `int`. -/
def int : Arith → Int → Int
  | machine, z => i32 z
  | exact, z => z

/-- Conversion to `unsigned int`. -/
def unsigned : Arith → Nat → Nat
  | machine, n => u32 n
  | exact, n => n

/-- The values a non-negative `int` can hold. -/
def Fits : Arith → Nat → Prop
  | machine, n => n < 2 ^ 31
  | exact, _ => True

instance (W : Arith) (n : Nat) : Decidable (W.Fits n) := by
  cases W <;> unfold Fits <;> infer_instance

@[simp] theorem int_add_int (W : Arith) (a b : Int) : W.int (W.int a + b) = W.int (a + b) := by
  cases W <;> simp [int, i32]

@[simp] theorem int_sub_int (W : Arith) (a b : Int) : W.int (W.int a - b) = W.int (a - b) := by
  cases W <;> simp [int, i32]

theorem int_zero (W : Arith) : W.int 0 = 0 := by
  cases W <;> rfl

theorem fits_zero (W : Arith) : W.Fits 0 := by
  cases W <;> simp [Fits]

theorem Fits.mono {W : Arith} {m n : Nat} (h : W.Fits n) (hmn : m ≤ n) : W.Fits m := by
  cases W
  · exact Nat.lt_of_le_of_lt hmn h
  · trivial

theorem int_of_fits {W : Arith} {n : Nat} (h : W.Fits n) : W.int n = n := by
  cases W
  · simp only [Fits, int, i32] at *
    exact Int.bmod_eq_of_le (by omega) (by omega)
  · rfl

theorem unsigned_of_fits {W : Arith} {n : Nat} (h : W.Fits n) : W.unsigned n = n := by
  cases W
  · simp only [Fits, unsigned] at *
    exact u32_of_lt (by omega)
  · rfl

/-- Below twice the range, a counter that has not gone negative is exact. -/
theorem int_nonneg_iff {W : Arith} {m n : Nat} (hm : W.Fits m) (hn : W.Fits n) :
    0 ≤ W.int (m + n : Nat) ↔ W.Fits (m + n) := by
  cases W
  · simp only [Fits, int, i32] at *
    rw [Int.bmod_def]
    split <;> omega
  · simp only [Fits, int, iff_true]; omega

end Arith

end Mahimahi
