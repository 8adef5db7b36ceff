import Mathlib.Data.List.Chain
import Mathlib.Data.List.Infix
import Mathlib.Data.List.TakeWhile
import Mahimahi.Machine

/-!
# Byte strings

The operations of `std::string` that the HTTP code uses, and the two
functions of the repository over them: `split` and `myatoi`.

The parsers look for a separator in what has come so far. What they need to
know of `find` is how it behaves when more bytes come: a place that has been
found stays (`find_append`), what is found later ends behind the bytes that
were there (`find_append_of_none`), and the bytes behind a place do not
matter (`find_take`).

A number is what its digits say (`IsNumber`, `digitsValue`); `strtol` reads it
and stops at the largest `long` (`strtol_number`).
-/

namespace Mahimahi

/-- The value of `std::string::npos` and of `(size_t) -1`. -/
def npos : Nat := 2 ^ 64 - 1

/-- `find`: the first place at which `needle` stands. -/
def find (needle : Bytes) : Bytes → Option Nat
  | [] => if needle.isEmpty then some 0 else none
  | c :: cs => if needle.isPrefixOf (c :: cs) then some 0 else (find needle cs).map (· + 1)

/-- `find_first_not_of`. -/
def findFirstNotOf (chars : Bytes) (s : Bytes) : Option Nat := s.findIdx? fun c => !chars.contains c

/-- `substr( pos, len )`. -/
def substr (s : Bytes) (pos len : Nat) : Except Fault Bytes :=
  if s.length < pos then .error .outOfRange else .ok ((s.drop pos).take len)

theorem substr_of_le {s : Bytes} {pos len : Nat} (h : pos ≤ s.length) :
    substr s pos len = .ok ((s.drop pos).take len) := if_neg (Nat.not_lt.mpr h)

/-- `at( i )`. -/
def byteAtIndex (s : Bytes) (i : Nat) : Except Fault UInt8 :=
  match s[i]? with
  | none => .error .outOfRange
  | some c => .ok c

def crlf : Bytes := ascii "\r\n"

/-! ## find and longer strings -/

section

variable {needle s t : Bytes} {i : Nat}

theorem find_cons_eq_some {c : UInt8} :
    find needle (c :: s) = some i ↔
      (needle <+: c :: s ∧ i = 0) ∨ (¬ needle <+: c :: s ∧ ∃ j, find needle s = some j ∧ i = j + 1) := by
  rw [find]
  by_cases hp : needle <+: c :: s
  · simp [List.isPrefixOf_iff_prefix.mpr hp, hp, eq_comm]
  · simp only [mt List.isPrefixOf_iff_prefix.mp hp, Option.map_eq_some_iff, hp, false_and, false_or,
      not_false_eq_true, true_and, if_false, Bool.false_eq_true, @eq_comm _ _ i]

theorem find_cons_eq_none {c : UInt8} :
    find needle (c :: s) = none ↔ ¬ needle <+: c :: s ∧ find needle s = none := by
  rw [find]
  by_cases hp : needle <+: c :: s
  · simp [List.isPrefixOf_iff_prefix.mpr hp, hp]
  · simp [mt List.isPrefixOf_iff_prefix.mp hp, hp]

theorem add_length_le_of_find : ∀ {s : Bytes} {i : Nat}, find needle s = some i →
    i + needle.length ≤ s.length
  | [], i, h => by
      rw [find] at h
      split at h
      · next hempty =>
          cases h
          simp [List.isEmpty_iff.mp hempty]
      · cases h
  | c :: s, i, h => by
      rcases find_cons_eq_some.mp h with ⟨hp, rfl⟩ | ⟨-, j, hj, rfl⟩
      · simpa using hp.length_le
      · have := add_length_le_of_find hj
        simp only [List.length_cons]
        omega

/-- A place that has been found stays where it is when more bytes come. -/
theorem find_append : ∀ {s : Bytes} {i : Nat}, find needle s = some i →
    find needle (s ++ t) = some i
  | [], i, h => by
      rw [find] at h
      split at h
      · next hempty =>
          cases h
          rw [List.isEmpty_iff.mp hempty]
          cases t <;> simp [find]
      · cases h
  | c :: s, i, h => by
      rw [List.cons_append, find_cons_eq_some]
      rcases find_cons_eq_some.mp h with ⟨hp, rfl⟩ | ⟨hp, j, hj, rfl⟩
      · exact .inl ⟨hp.trans (List.prefix_append (c :: s) t), rfl⟩
      · refine .inr ⟨fun hp' => hp ?_, j, find_append hj, rfl⟩
        have hlen := add_length_le_of_find hj
        exact List.prefix_of_prefix_length_le hp' (List.prefix_append (c :: s) t)
          (by simp only [List.length_cons]; omega)

theorem find_append_of_none : ∀ {s : Bytes} {i : Nat}, find needle s = none →
    find needle (s ++ t) = some i → s.length < i + needle.length
  | [], i, h, _ => by
      rw [find] at h
      split at h
      · cases h
      · next hne =>
          have : needle ≠ [] := fun hnil => hne (List.isEmpty_iff.mpr hnil)
          have := List.length_pos_iff.mpr this
          simp only [List.length_nil]
          omega
  | c :: s, i, h, ht => by
      obtain ⟨hp, hs⟩ := find_cons_eq_none.mp h
      rcases find_cons_eq_some.mp ht with ⟨hp', rfl⟩ | ⟨-, j, hj, rfl⟩
      · by_contra hle
        exact hp (List.prefix_of_prefix_length_le hp' (List.prefix_append (c :: s) t) (by omega))
      · have := find_append_of_none hs hj
        simp only [List.length_cons]
        omega

/-- The bytes behind a place that has been found do not matter. -/
theorem find_take {k : Nat} (h : find needle s = some i) (hk : i + needle.length ≤ k) :
    find needle (s.take k) = some i := by
  have hsplit : find needle (s.take k ++ s.drop k) = some i := by rwa [List.take_append_drop]
  cases htake : find needle (s.take k) with
  | some j =>
      have := find_append (t := s.drop k) htake
      rw [hsplit] at this
      exact this.symm
  | none =>
      have hlt := find_append_of_none htake hsplit
      have hle := add_length_le_of_find h
      rw [List.length_take] at hlt
      omega

theorem find_prefix : ∀ {s : Bytes} {i : Nat}, find needle s = some i → needle <+: s.drop i
  | [], i, h => by
      rw [find] at h
      split at h
      · next hempty =>
          rw [List.isEmpty_iff.mp hempty]
          exact List.nil_prefix
      · cases h
  | c :: s, i, h => by
      rcases find_cons_eq_some.mp h with ⟨hp, rfl⟩ | ⟨-, j, hj, rfl⟩
      · exact hp
      · show needle <+: s.drop j
        exact find_prefix hj

theorem not_prefix_of_find : ∀ {s : Bytes} {i j : Nat}, find needle s = some i → j < i →
    ¬ needle <+: s.drop j
  | [], i, j, h, hj => by
      have := add_length_le_of_find h
      simp only [List.length_nil] at this
      omega
  | c :: s, i, j, h, hj => by
      rcases find_cons_eq_some.mp h with ⟨-, rfl⟩ | ⟨hp, k, hk, rfl⟩
      · omega
      · cases j with
        | zero => exact hp
        | succ j => exact not_prefix_of_find (s := s) hk (by omega)

/-- Places at which the needle does not stand can be passed over. -/
theorem find_drop (needle : Bytes) : ∀ (s : Bytes) (k : Nat), k ≤ s.length →
    (∀ j < k, ¬ needle <+: s.drop j) → find needle s = (find needle (s.drop k)).map (· + k)
  | s, 0, _, _ => by simp
  | [], k + 1, hk, _ => absurd hk (by simp)
  | c :: s, k + 1, hk, h => by
      have ih := find_drop needle s k (by simpa using hk) fun j hj => h (j + 1) (by omega)
      have hp : needle.isPrefixOf (c :: s) = false := by
        rw [Bool.eq_false_iff]
        exact fun hp => h 0 (by omega) (List.isPrefixOf_iff_prefix.mp hp)
      rw [find, hp, List.drop_succ_cons, ih]
      simp [Option.map_map, Function.comp_def, Nat.add_assoc]

end

/-! ## A line ending, a single byte -/

/-- No line ending stands inside. -/
def NoCrlf (line : Bytes) : Prop := line.IsChain fun a b => ¬ (a = 13 ∧ b = 10)

instance (line : Bytes) : Decidable (NoCrlf line) :=
  inferInstanceAs (Decidable (line.IsChain fun a b => ¬ (a = 13 ∧ b = 10)))

theorem find_crlf_eq_length : ∀ line rest : Bytes,
    find crlf (line ++ crlf ++ rest) = some line.length ↔ NoCrlf line
  | [], rest => by
      rw [List.nil_append, NoCrlf]
      have : find crlf (crlf ++ rest) = some 0 := by
        show find crlf (13 :: 10 :: rest) = some 0
        simp [find, crlf, ascii]
      simp [this]
  | [c], rest => by
      have hnil := find_crlf_eq_length [] rest
      simp only [List.nil_append, List.length_nil, NoCrlf, List.isChain_nil, iff_true] at hnil
      have hp : ¬ crlf <+: c :: (crlf ++ rest) := by
        show ¬ [13, 10] <+: c :: 13 :: (10 :: rest)
        simp
      show find crlf (c :: (crlf ++ rest)) = some (0 + 1) ↔ _
      rw [find_cons_eq_some, NoCrlf]
      simp [hp, hnil]
  | c :: d :: line, rest => by
      have ih := find_crlf_eq_length (d :: line) rest
      have hp : crlf <+: c :: (d :: line ++ crlf ++ rest) ↔ c = 13 ∧ d = 10 := by
        show [13, 10] <+: c :: d :: (line ++ crlf ++ rest) ↔ _
        simp [eq_comm]
      show find crlf (c :: (d :: line ++ crlf ++ rest)) = some ((d :: line).length + 1) ↔ _
      rw [find_cons_eq_some, hp, NoCrlf, List.isChain_cons_cons, ← NoCrlf, ← ih]
      simp

theorem NoCrlf.append {s t : Bytes} (hs : NoCrlf s) (ht : NoCrlf t)
    (h : s.getLast? = some 13 → t.head? ≠ some 10) : NoCrlf (s ++ t) := by
  refine List.isChain_append.mpr ⟨hs, ht, fun a ha b hb hab => ?_⟩
  rw [hab.1] at ha
  rw [hab.2] at hb
  exact h ha hb

theorem NoCrlf.left {s t : Bytes} (h : NoCrlf (s ++ t)) : NoCrlf s := (List.isChain_append.mp h).1

theorem NoCrlf.right {s t : Bytes} (h : NoCrlf (s ++ t)) : NoCrlf t := (List.isChain_append.mp h).2.1

theorem find_byte_eq_some {c : UInt8} : ∀ {s t : Bytes}, c ∉ s → find [c] (s ++ c :: t) = some s.length
  | [], t, _ => by simp [find]
  | b :: s, t, h => by
      have hb : ¬ [c] <+: b :: (s ++ c :: t) := by
        simp only [List.mem_cons, not_or] at h
        simp [h.1]
      exact find_cons_eq_some.mpr
        (.inr ⟨hb, _, find_byte_eq_some (fun hs => h (List.mem_cons_of_mem _ hs)), rfl⟩)

theorem find_byte_eq_none {c : UInt8} : ∀ {s : Bytes}, c ∉ s → find [c] s = none
  | [], _ => rfl
  | b :: s, h => by
      simp only [List.mem_cons, not_or] at h
      exact find_cons_eq_none.mpr ⟨by simp [h.1], find_byte_eq_none h.2⟩

theorem not_mem_take_of_find {c : UInt8} : ∀ {s : Bytes} {i : Nat}, find [c] s = some i → c ∉ s.take i
  | [], i, h => by simp
  | b :: s, i, h => by
      rcases find_cons_eq_some.mp h with ⟨-, rfl⟩ | ⟨hb, j, hj, rfl⟩
      · simp
      · have hne : c ≠ b := by
          intro hcb
          simp [hcb] at hb
        simp [hne, not_mem_take_of_find hj]

/-! ## find_first_not_of -/

theorem findFirstNotOf_eq_none {c : UInt8} {s : Bytes} :
    findFirstNotOf [c] s = none ↔ s = List.replicate s.length c := by
  rw [findFirstNotOf, List.findIdx?_eq_none_iff, List.eq_replicate_iff]
  simp

theorem findFirstNotOf_eq_some {c : UInt8} : ∀ {s : Bytes} {k : Nat},
    findFirstNotOf [c] s = some k ↔ ∃ d t, d ≠ c ∧ s = List.replicate k c ++ d :: t
  | [], k => by simp [findFirstNotOf]
  | b :: s, k => by
      have ih := fun k => findFirstNotOf_eq_some (c := c) (s := s) (k := k)
      simp only [findFirstNotOf] at ih
      rw [findFirstNotOf, List.findIdx?_cons]
      by_cases hb : b = c
      · subst hb
        cases k with
        | zero => simp
        | succ k => simpa [List.replicate_succ] using ih k
      · cases k with
        | zero => simp [hb]
        | succ k => simp [hb, List.replicate_succ]

/-! ## split -/

/-- The places at which `separator` stands, one after the other: where the
loop of `split` finds it. -/
def occurrences (separator : Bytes) : Nat → Bytes → List Nat
  | i, [] => if separator.isEmpty then [i] else []
  | i, c :: cs =>
      if separator.isPrefixOf (c :: cs) then i :: occurrences separator (i + 1) cs
      else occurrences separator (i + 1) cs

/-- The tokens between the places `i` and those that follow it. -/
def innerTokens (str separator : Bytes) : Nat → List Nat → Except Fault (List Bytes)
  | i, [] => do
      let last ← substr str (i + separator.length) npos
      return [last]
  | i, j :: indices => do
      let token ← substr str (i + separator.length) (sub64 (sub64 j i) separator.length)
      let tokens ← innerTokens str separator j indices
      return token :: tokens

def split (str separator : Bytes) : Except Fault (List Bytes) :=
  match occurrences separator 0 str with
  | [] => .ok [str]
  | i :: indices => do
      let first ← substr str 0 i
      let tokens ← innerTokens str separator i indices
      return first :: tokens

/-! ## myatoi -/

/-- `isspace`, in the C locale. -/
def isSpace (c : UInt8) : Bool := c == 32 || (9 ≤ c && c ≤ 13)

/-- The value of a digit or letter. -/
def digitValue (c : UInt8) : Option Nat :=
  if 48 ≤ c && c ≤ 57 then some (c.toNat - 48)
  else if 65 ≤ c && c ≤ 90 then some (c.toNat - 55)
  else if 97 ≤ c && c ≤ 122 then some (c.toNat - 87)
  else none

def isDigitOf (base : Nat) (c : UInt8) : Bool :=
  match digitValue c with
  | some d => decide (d < base)
  | none => false

/-- What `strtol` returns: the value, how far it has read, and whether the
value was out of range. -/
structure Strtol where
  value : Int
  length : Nat
  outOfRange : Bool
  deriving DecidableEq, Repr

/-- The digits of a number in `base`, without the `0x` that base 16 allows in
front of them, and how many characters that is. -/
def dropBasePrefix (base : Nat) (s : Bytes) : Bytes × Nat :=
  match s with
  | 48 :: x :: d :: rest =>
      if base = 16 ∧ (x = 120 ∨ x = 88) ∧ isDigitOf 16 d = true then (d :: rest, 2) else (s, 0)
  | _ => (s, 0)

/-- `strtol`, for a string without a NUL in front of its end. -/
def strtol (s : Bytes) (base : Nat) : Strtol :=
  let spaces := s.takeWhile isSpace
  let s := s.dropWhile isSpace
  let (negative, s, signLength) :=
    match s with
    | 45 :: rest => (true, rest, 1)
    | 43 :: rest => (false, rest, 1)
    | _ => (false, s, 0)
  let (s, prefixLength) := dropBasePrefix base s
  let digits := s.takeWhile (isDigitOf base)
  if digits.isEmpty then ⟨0, 0, false⟩
  else
    let magnitude : Int := digits.foldl (fun n c => n * base + ((digitValue c).getD 0 : Nat)) 0
    let value := if negative then - magnitude else magnitude
    { value := max (- 2 ^ 63) (min (2 ^ 63 - 1) value)
      length := spaces.length + signLength + prefixLength + digits.length
      outOfRange := decide (value < - 2 ^ 63) || decide (2 ^ 63 - 1 < value) }

/-- `myatoi`; a digit is no NUL, so a NUL stops `strtol` short of the end. -/
def myatoi (str : Bytes) (base : Nat) : Except Fault Int := do
  if str.isEmpty then
    throw (.runtimeError "Invalid integer string: empty")
  let ret := strtol str base
  if ret.outOfRange then
    throw (.systemError "strtol")
  else if ret.length ≠ str.length then
    throw (.runtimeErrorWith "Invalid integer: " str)
  return ret.value

theorem myatoi_eq_ok_iff {base : Nat} {s : Bytes} {v : Int} :
    myatoi s base = .ok v ↔ s ≠ [] ∧ (strtol s base).outOfRange = false ∧
      (strtol s base).length = s.length ∧ (strtol s base).value = v := by
  by_cases hempty : s = []
  · simp [myatoi, hempty]
  by_cases hrange : (strtol s base).outOfRange = true
  · simp [myatoi, hempty, hrange]
  by_cases hlength : (strtol s base).length = s.length <;>
    simp [myatoi, hempty, hrange, hlength]

/-- A value beyond `long` is cut off at its end. -/
theorem strtol_range (s : Bytes) (base : Nat) :
    - 2 ^ 63 ≤ (strtol s base).value ∧ (strtol s base).value < 2 ^ 63 := by
  unfold strtol
  dsimp only
  split <;> split <;> dsimp only <;> omega

/-! ## Numbers -/

/-- A number in `base`, as its digits have it. -/
def digitsValue (base : Nat) (digits : Bytes) : Nat :=
  digits.foldl (fun n c => n * base + (digitValue c).getD 0) 0

/-- One digit or more. -/
structure IsNumber (base : Nat) (digits : Bytes) : Prop where
  nonempty : digits ≠ []
  digits : ∀ c ∈ digits, isDigitOf base c = true

theorem isDigitOf_cases : ∀ n < 256, isDigitOf 16 (UInt8.ofNat n) = true →
    isSpace (UInt8.ofNat n) = false ∧ UInt8.ofNat n ≠ 45 ∧ UInt8.ofNat n ≠ 43 ∧
      UInt8.ofNat n ≠ 120 ∧ UInt8.ofNat n ≠ 88 ∧ UInt8.ofNat n ≠ 59 ∧ UInt8.ofNat n ≠ 32 := by
  decide +kernel

theorem isDigitOf_mono {b b' : Nat} {c : UInt8} (h : isDigitOf b c = true) (hb : b ≤ b') :
    isDigitOf b' c = true := by
  unfold isDigitOf at *
  cases hd : digitValue c with
  | none =>
      rw [hd] at h
      cases h
  | some d =>
      rw [hd] at h
      have : d < b := of_decide_eq_true h
      exact decide_eq_true (by omega)

theorem isDigitOf_facts {base : Nat} {c : UInt8} (hbase : base ≤ 16) (h : isDigitOf base c = true) :
    isSpace c = false ∧ c ≠ 45 ∧ c ≠ 43 ∧ c ≠ 120 ∧ c ≠ 88 ∧ c ≠ 59 ∧ c ≠ 32 := by
  have := isDigitOf_cases c.toNat c.toNat_lt
  rw [UInt8.ofNat_toNat] at this
  exact this (isDigitOf_mono h hbase)

theorem dropBasePrefix_digits {base : Nat} (hbase : base ≤ 16) :
    ∀ {digits : Bytes}, (∀ c ∈ digits, isDigitOf base c = true) →
      dropBasePrefix base digits = (digits, 0)
  | [], _ | [_], _ | [_, _], _ => by simp [dropBasePrefix]
  | z :: x :: d :: rest, h => by
      have hx := isDigitOf_facts hbase (h x (by simp))
      unfold dropBasePrefix
      split
      · next heq =>
          obtain ⟨-, rfl, -⟩ := by simpa using heq
          rw [if_neg]
          rintro ⟨-, hx' | hx', -⟩
          · exact hx.2.2.2.1 hx'
          · exact hx.2.2.2.2.1 hx'
      · rfl

theorem foldl_digits (base : Nat) (digits : Bytes) (n : Nat) :
    digits.foldl (fun (n : Int) c => n * base + ((digitValue c).getD 0 : Nat)) (n : Int)
      = ((digits.foldl (fun n c => n * base + (digitValue c).getD 0) n : Nat) : Int) := by
  induction digits generalizing n with
  | nil => rfl
  | cons d digits ih =>
      rw [List.foldl_cons, List.foldl_cons, ← ih]
      push_cast
      rfl

/-- `strtol` stops at the largest `long`. -/
theorem strtol_number {base : Nat} {digits : Bytes} (hbase : base ≤ 16) (h : IsNumber base digits) :
    strtol digits base = ⟨(min (digitsValue base digits) (2 ^ 63 - 1) : Nat), digits.length,
      decide (2 ^ 63 ≤ digitsValue base digits)⟩ := by
  obtain ⟨hne, hdigits⟩ := h
  obtain ⟨c, rest, rfl⟩ := List.exists_cons_of_ne_nil hne
  have hc := isDigitOf_facts hbase (hdigits c (by simp))
  have htake : (c :: rest).takeWhile (isDigitOf base) = c :: rest :=
    List.takeWhile_eq_self_iff.mpr hdigits
  have hmag : (c :: rest).foldl
      (fun (n : Int) c => n * base + ((digitValue c).getD 0 : Nat)) 0
        = (digitsValue base (c :: rest) : Int) := foldl_digits base (c :: rest) 0
  unfold strtol
  simp only [List.takeWhile_cons, List.dropWhile_cons, hc.1, Bool.false_eq_true, if_false]
  split
  · next heq => exact absurd (List.cons.inj heq).1 hc.2.1
  · next heq => exact absurd (List.cons.inj heq).1 hc.2.2.1
  · rw [dropBasePrefix_digits hbase hdigits]
    simp only [htake, List.isEmpty_cons, Bool.false_eq_true, if_false, hmag]
    generalize digitsValue base (c :: rest) = v
    have hlow : ¬ ((v : Int) < - 2 ^ 63) := by omega
    have hhigh : ((2 : Int) ^ 63 - 1 < v) ↔ 2 ^ 63 ≤ v := by omega
    simp only [Strtol.mk.injEq, List.length_nil, hlow, hhigh, decide_false, Bool.false_or]
    refine ⟨?_, by omega, trivial⟩
    rcases Nat.le_total v (2 ^ 63 - 1) with hv | hv
    · rw [Nat.min_eq_left hv]
      omega
    · rw [Nat.min_eq_right hv]
      omega

theorem strtol_digits {base : Nat} {digits : Bytes} (hbase : base ≤ 16) (h : IsNumber base digits)
    (hvalue : digitsValue base digits < 2 ^ 63) :
    strtol digits base = ⟨digitsValue base digits, digits.length, false⟩ := by
  rw [strtol_number hbase h, Nat.min_eq_left (by omega), decide_eq_false (Nat.not_le.mpr hvalue)]

theorem myatoi_digits {base : Nat} {digits : Bytes} (hbase : base ≤ 16) (h : IsNumber base digits)
    (hvalue : digitsValue base digits < 2 ^ 63) :
    myatoi digits base = .ok (digitsValue base digits) := by
  have hne : digits.isEmpty = false := by simpa using h.nonempty
  simp [myatoi, hne, strtol_digits hbase h hvalue]

end Mahimahi
