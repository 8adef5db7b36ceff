import Mahimahi.HTTPGrammar

/-!
# The sizes of chunks

The size of a chunk goes from the text in its header through `strtol` to a
`long`, and from there to 32 bits. `myatoi_eq_ok` lists the texts that
`strtol` takes whole, which are more than the hexadecimal numbers of the
grammar; `getChunkSize_eq_ok` carries that over to header lines. What comes
out is the number that was written exactly when that is small enough, and
was written without a sign (`chunk_size_faithful_iff`).
-/

namespace Mahimahi

/-! ## Numerals -/

/-- A number as `strtol` takes it: white space, a sign and, in base 16, `0x`
may stand in front of the digits. -/
structure IsNumeral (base : Nat) (spaces sign lead digits : Bytes) : Prop where
  white : ∀ c ∈ spaces, isSpace c = true
  signed : sign = [] ∨ sign = [43] ∨ sign = [45]
  led : lead = [] ∨ base = 16 ∧ (lead = [48, 120] ∨ lead = [48, 88])
  number : IsNumber base digits

/-- The number that is written. -/
def numeralValue (base : Nat) (sign digits : Bytes) : Int :=
  if sign = [45] then - digitsValue base digits else digitsValue base digits

theorem dropBasePrefix_split (base : Nat) (s : Bytes) :
    ∃ lead, s = lead ++ (dropBasePrefix base s).1 ∧ (dropBasePrefix base s).2 = lead.length ∧
      (lead = [] ∨ base = 16 ∧ (lead = [48, 120] ∨ lead = [48, 88])) := by
  unfold dropBasePrefix
  split
  · next x d rest =>
      split
      · next h =>
          obtain ⟨hbase, hx, -⟩ := h
          refine ⟨[48, x], rfl, rfl, .inr ⟨hbase, ?_⟩⟩
          rcases hx with rfl | rfl
          · exact .inl rfl
          · exact .inr rfl
      · exact ⟨[], rfl, rfl, .inl rfl⟩
  · exact ⟨[], rfl, rfl, .inl rfl⟩

/-- `strtol` behind the sign, `before` characters into the string. -/
def strtolDigits (base : Nat) (negative : Bool) (before : Nat) (s : Bytes) : Strtol :=
  let digits := (dropBasePrefix base s).1.takeWhile (isDigitOf base)
  if digits.isEmpty then ⟨0, 0, false⟩
  else
    let value : Int := if negative then - digitsValue base digits else digitsValue base digits
    { value := max (- 2 ^ 63) (min (2 ^ 63 - 1) value)
      length := before + (dropBasePrefix base s).2 + digits.length
      outOfRange := decide (value < - 2 ^ 63) || decide (2 ^ 63 - 1 < value) }

/-- Where `strtol` looks for the digits: behind white space and a sign. -/
structure SignedAt (spaces sign rest : Bytes) : Prop where
  white : ∀ c ∈ spaces, isSpace c = true
  signed : sign = [] ∨ sign = [43] ∨ sign = [45]
  unspaced : ∀ c ∈ (sign ++ rest).head?, isSpace c = false
  unsigned : sign = [] → ∀ c ∈ rest.head?, c ≠ 45 ∧ c ≠ 43

theorem exists_signedAt (s : Bytes) :
    ∃ spaces sign rest, s = spaces ++ sign ++ rest ∧ SignedAt spaces sign rest := by
  have hs : s.takeWhile isSpace ++ s.dropWhile isSpace = s := List.takeWhile_append_dropWhile
  have hspaces : ∀ c ∈ s.takeWhile isSpace, isSpace c = true := fun c hc =>
    List.mem_takeWhile_imp hc
  have hhead := List.head?_dropWhile_not isSpace s
  rcases hrest : s.dropWhile isSpace with _ | ⟨c, rest⟩
  · refine ⟨s, [], [], by simp, ?_, .inl rfl, by simp, by simp⟩
    rw [hrest, List.append_nil] at hs
    rwa [hs] at hspaces
  rw [hrest] at hs hhead
  have hc : isSpace c = false := by simpa using hhead
  by_cases hsign : c = 43 ∨ c = 45
  · refine ⟨s.takeWhile isSpace, [c], rest, by simpa using hs.symm, hspaces, .inr ?_,
      by simpa using hc, by simp⟩
    rcases hsign with rfl | rfl
    · exact .inl rfl
    · exact .inr rfl
  · refine ⟨s.takeWhile isSpace, [], c :: rest, by simpa using hs.symm, hspaces, .inl rfl,
      by simpa using hc, fun _ d hd => ?_⟩
    obtain rfl : c = d := by simpa using hd
    exact ⟨fun h => hsign (.inr h), fun h => hsign (.inl h)⟩

theorem strtol_eq {spaces sign rest : Bytes} (base : Nat) (h : SignedAt spaces sign rest) :
    strtol (spaces ++ sign ++ rest) base
      = strtolDigits base (decide (sign = [45])) (spaces ++ sign).length rest := by
  have hmagnitude (digits : Bytes) : digits.foldl
      (fun (n : Int) c => n * base + ((digitValue c).getD 0 : Nat)) 0
        = (digitsValue base digits : Int) := foldl_digits base digits 0
  have hrest : ∀ u : Bytes, (∀ c ∈ u.head?, isSpace c = false) →
      u.takeWhile isSpace = [] ∧ u.dropWhile isSpace = u
    | [], _ => ⟨rfl, rfl⟩
    | c :: t, hu => by
        have hc := hu c rfl
        simp [hc]
  have hrest := hrest (sign ++ rest) h.unspaced
  have htake : (spaces ++ (sign ++ rest)).takeWhile isSpace = spaces := by
    rw [List.takeWhile_append_of_pos h.white, hrest.1, List.append_nil]
  have hdrop : (spaces ++ (sign ++ rest)).dropWhile isSpace = sign ++ rest := by
    rw [List.dropWhile_append_of_pos h.white, hrest.2]
  rw [List.append_assoc]
  unfold strtol strtolDigits
  simp only [htake, hdrop, hmagnitude]
  rcases h.signed with rfl | rfl | rfl
  · rcases rest with _ | ⟨c, t⟩
    · simp
    · obtain ⟨hminus, hplus⟩ := h.unsigned rfl c rfl
      simp [hminus, hplus]
  · simp
  · simp

theorem IsNumeral.signedAt {base : Nat} {spaces sign lead digits : Bytes} (hbase : base ≤ 16)
    (h : IsNumeral base spaces sign lead digits) : SignedAt spaces sign (lead ++ digits) := by
  have hfirst : ∀ c ∈ (lead ++ digits).head?, isSpace c = false ∧ c ≠ 45 ∧ c ≠ 43 := by
    intro c hc
    rcases h.led with rfl | ⟨-, rfl | rfl⟩
    · have := isDigitOf_facts hbase (h.number.digits c (List.mem_of_mem_head? hc))
      exact ⟨this.1, this.2.1, this.2.2.1⟩
    all_goals
      obtain rfl : 48 = c := by simpa using hc
      decide
  refine ⟨h.white, h.signed, fun c hc => ?_, fun _ c hc => (hfirst c hc).2⟩
  rcases h.signed with rfl | rfl | rfl
  · exact (hfirst c hc).1
  all_goals
    obtain rfl := by simpa using hc
    decide

theorem IsNumeral.dropBasePrefix {base : Nat} {spaces sign lead digits : Bytes} (hbase : base ≤ 16)
    (h : IsNumeral base spaces sign lead digits) :
    dropBasePrefix base (lead ++ digits) = (digits, lead.length) := by
  obtain ⟨d, rest, hdigits⟩ := List.exists_cons_of_ne_nil h.number.nonempty
  have hd : isDigitOf base d = true := h.number.digits d (by simp [hdigits])
  rcases h.led with rfl | ⟨rfl, rfl | rfl⟩
  · exact dropBasePrefix_digits hbase h.number.digits
  all_goals simp [Mahimahi.dropBasePrefix, hdigits, hd]

/-- A numeral is read to its end. -/
theorem IsNumeral.strtol {base : Nat} {spaces sign lead digits : Bytes} (hbase : base ≤ 16)
    (h : IsNumeral base spaces sign lead digits) :
    strtol (spaces ++ sign ++ lead ++ digits) base
      = ⟨max (- 2 ^ 63) (min (2 ^ 63 - 1) (numeralValue base sign digits)),
          (spaces ++ sign ++ lead ++ digits).length,
          decide (numeralValue base sign digits < - 2 ^ 63) ||
            decide (2 ^ 63 - 1 < numeralValue base sign digits)⟩ := by
  have htake : digits.takeWhile (isDigitOf base) = digits :=
    List.takeWhile_eq_self_iff.mpr h.number.digits
  have hne : digits.isEmpty = false := by simpa using h.number.nonempty
  have hstrtol := strtol_eq base (h.signedAt hbase)
  rw [strtolDigits, h.dropBasePrefix hbase] at hstrtol
  simp only [htake, hne, Bool.false_eq_true, if_false, decide_eq_true_eq] at hstrtol
  rw [← numeralValue, ← List.append_assoc] at hstrtol
  rw [hstrtol]
  simp only [List.length_append]

/-- **What `myatoi` takes.** White space, a sign and the prefix of base 16 are
passed over, and the number has to be a `long`. -/
theorem myatoi_eq_ok {base : Nat} (hbase : base ≤ 16) {s : Bytes} {v : Int} :
    myatoi s base = .ok v ↔ ∃ spaces sign lead digits, s = spaces ++ sign ++ lead ++ digits ∧
      IsNumeral base spaces sign lead digits ∧ v = numeralValue base sign digits ∧
      - 2 ^ 63 ≤ v ∧ v < 2 ^ 63 := by
  rw [myatoi_eq_ok_iff]
  constructor
  · rintro ⟨hne, hrange, hlength, hvalue⟩
    obtain ⟨spaces, sign, rest, rfl, hsigned⟩ := exists_signedAt s
    obtain ⟨lead, hlead, hleadLength, hled⟩ := dropBasePrefix_split base rest
    rw [strtol_eq base hsigned, strtolDigits, hleadLength] at hrange hlength hvalue
    generalize (dropBasePrefix base rest).1 = u at hlead hrange hlength hvalue
    subst hlead
    by_cases hdigits : u.takeWhile (isDigitOf base) = []
    · -- without a digit nothing is read
      simp only [hdigits, List.isEmpty_nil, if_true] at hlength
      exact absurd (List.length_eq_zero_iff.mp hlength.symm) hne
    simp only [List.isEmpty_iff, hdigits, if_false] at hrange hlength hvalue
    have hall : u.takeWhile (isDigitOf base) = u := by
      refine (List.takeWhile_sublist _).eq_of_length ?_
      simp only [List.length_append] at hlength
      omega
    rw [hall] at hdigits hrange hvalue
    refine ⟨spaces, sign, lead, u, by simp, ⟨hsigned.white, hsigned.signed, hled, hdigits,
      List.takeWhile_eq_self_iff.mp hall⟩, ?_⟩
    simp only [Bool.or_eq_false_iff, decide_eq_false_iff_not, decide_eq_true_eq] at hrange hvalue
    rw [← numeralValue] at hrange hvalue
    omega
  · rintro ⟨spaces, sign, lead, digits, rfl, hnum, rfl, hlow, hhigh⟩
    rw [hnum.strtol hbase]
    refine ⟨by simp [hnum.number.nonempty], ?_, rfl, ?_⟩
    · rw [decide_eq_false (by omega), decide_eq_false (by omega)]
      rfl
    · show max _ _ = _
      omega

theorem IsNumeral.eq_of_myatoi {base : Nat} {spaces sign lead digits : Bytes} {v : Int}
    (hbase : base ≤ 16) (h : IsNumeral base spaces sign lead digits)
    (hv : myatoi (spaces ++ sign ++ lead ++ digits) base = .ok v) :
    v = numeralValue base sign digits := by
  obtain ⟨-, hrange, -, hvalue⟩ := myatoi_eq_ok_iff.mp hv
  rw [h.strtol hbase] at hrange hvalue
  simp only [Bool.or_eq_false_iff, decide_eq_false_iff_not] at hrange hvalue
  omega

/-! ## Header lines -/

namespace ChunkedBodyParser

/-- The text of a header line in front of the first `;` or space. -/
def sizeText (hdr : Bytes) : Bytes := hdr.takeWhile fun c => c != 59 && c != 32

theorem take_find_space {s : Bytes} (hs : 59 ∉ s) :
    (match find (ascii " ") s with
      | some spaceLoc => s.take spaceLoc
      | none => s) = sizeText s := by
  by_cases hspace : 32 ∈ s
  · obtain ⟨t, u, rfl, ht⟩ := List.eq_append_cons_of_mem hspace
    have hfind : find (ascii " ") (t ++ 32 :: u) = some t.length := find_byte_eq_some ht
    have hall : ∀ c ∈ t, (c != 59 && c != 32) = true := by
      intro c hc
      have h59 : c ≠ 59 := fun h => hs (by simp [← h, hc])
      have h32 : c ≠ 32 := fun h => ht (h ▸ hc)
      simp [h59, h32]
    simp only [hfind, List.take_left]
    rw [sizeText, List.takeWhile_append_of_pos hall]
    simp
  · have hfind : find (ascii " ") s = none := find_byte_eq_none hspace
    have hall : ∀ c ∈ s, (c != 59 && c != 32) = true := by
      intro c hc
      have h59 : c ≠ 59 := fun h => hs (h ▸ hc)
      have h32 : c ≠ 32 := fun h => hspace (h ▸ hc)
      simp [h59, h32]
    simp only [hfind]
    exact (List.takeWhile_eq_self_iff.mpr hall).symm

theorem sizeText_append (s t : Bytes) : sizeText (s ++ 59 :: t) = sizeText s := by
  rw [sizeText, sizeText, List.takeWhile_append]
  split
  · next h =>
      have := (List.takeWhile_sublist (l := s) fun c => c != 59 && c != 32).eq_of_length h
      rw [this]
      simp
  · rfl

/-- What `get_chunk_size` makes of a header line. -/
theorem getChunkSize_line {hdr : Bytes} (h : NoCrlf hdr) :
    getChunkSize (hdr ++ crlf) = (myatoi (sizeText hdr) 16).map fun size => (size % 2 ^ 32).toNat := by
  have hending := substr_ending hdr
  -- the text up to the extension, or all of it
  obtain ⟨s, hs, hpos, htake, htext⟩ : ∃ s : Bytes, 59 ∉ s ∧
      (find (ascii ";") (hdr ++ crlf)).or (find crlf (hdr ++ crlf)) = some s.length ∧
      substr (hdr ++ crlf) 0 s.length = .ok s ∧ sizeText s = sizeText hdr := by
    by_cases hext : 59 ∈ hdr
    · obtain ⟨s, t, rfl, hs⟩ := List.eq_append_cons_of_mem hext
      have hfind : find (ascii ";") (s ++ 59 :: t ++ crlf) = some s.length := by
        rw [List.append_assoc]
        exact find_byte_eq_some hs
      refine ⟨s, hs, by rw [hfind]; rfl, ?_, (sizeText_append s t).symm⟩
      rw [substr_of_le (Nat.zero_le _), List.drop_zero, List.append_assoc, List.take_left]
    · have hnone : find (ascii ";") (hdr ++ crlf) = none :=
        find_byte_eq_none (c := 59) (by simp [hext, crlf, ascii])
      have hcrlf : find crlf (hdr ++ crlf) = some hdr.length := by
        have := (find_crlf_eq_length hdr []).mpr h
        rwa [List.append_nil] at this
      refine ⟨hdr, hext, by rw [hnone, hcrlf]; rfl, ?_, rfl⟩
      rw [substr_of_le (Nat.zero_le _), List.drop_zero, List.take_left]
  have hspace := take_find_space hs
  simp only [getChunkSize, hending, hpos, htake, ok_bind, beq_self_eq_true, assertThat_true]
  rw [← htext, ← hspace]
  cases find (ascii " ") s <;> rfl

/-- The size that a header line is read as. -/
def HasSize (hdr : Bytes) (n : Nat) : Prop :=
  ∃ spaces sign lead digits, sizeText hdr = spaces ++ sign ++ lead ++ digits ∧
    IsNumeral 16 spaces sign lead digits ∧ - 2 ^ 63 ≤ numeralValue 16 sign digits ∧
    numeralValue 16 sign digits < 2 ^ 63 ∧ n = (numeralValue 16 sign digits % 2 ^ 32).toNat

theorem getChunkSize_eq_ok {hdr : Bytes} {n : Nat} (h : NoCrlf hdr) :
    getChunkSize (hdr ++ crlf) = .ok n ↔ HasSize hdr n := by
  have hmap (x : Except Fault Int) : (x.map fun size => (size % 2 ^ 32).toNat) = .ok n ↔
      ∃ v, x = .ok v ∧ n = (v % 2 ^ 32).toNat := by
    cases x <;> simp [Except.map, eq_comm]
  rw [getChunkSize_line h, hmap]
  constructor
  · rintro ⟨v, hv, hn⟩
    obtain ⟨spaces, sign, lead, digits, htext, hnum, rfl, hlow, hhigh⟩ :=
      (myatoi_eq_ok (Nat.le_refl _)).mp hv
    exact ⟨spaces, sign, lead, digits, htext, hnum, hlow, hhigh, hn⟩
  · rintro ⟨spaces, sign, lead, digits, htext, hnum, hlow, hhigh, hn⟩
    exact ⟨_, (myatoi_eq_ok (Nat.le_refl _)).mpr
      ⟨spaces, sign, lead, digits, htext, hnum, rfl, hlow, hhigh⟩, hn⟩

/-- The number in front of the first `;` or space, or of the end of the line,
is hexadecimal, and it is `n`. -/
def Writes (hdr : Bytes) (n : Nat) : Prop :=
  IsNumber 16 (sizeText hdr) ∧ digitsValue 16 (sizeText hdr) = n

theorem isNumeral_of_isNumber {base : Nat} {digits : Bytes} (h : IsNumber base digits) :
    IsNumeral base [] [] [] digits :=
  ⟨fun _ hc => (by cases hc), .inl rfl, .inl rfl, h⟩

/-- The size that is read is the number that is written, and the chunk's
ending can be added to it, exactly when the number has no minus sign and
leaves room for the ending. -/
theorem hasSize_iff {hdr spaces sign lead digits : Bytes} {n : Nat} (h : HasSize hdr n)
    (htext : sizeText hdr = spaces ++ sign ++ lead ++ digits)
    (hnum : IsNumeral 16 spaces sign lead digits) :
    ((n : Int) = numeralValue 16 sign digits ∧ u32 (n + 2) = n + 2) ↔
      0 ≤ numeralValue 16 sign digits ∧ numeralValue 16 sign digits < 2 ^ 32 - 2 := by
  obtain ⟨spaces', sign', lead', digits', htext', hnum', hlow, hhigh, rfl⟩ := h
  have hread : myatoi (sizeText hdr) 16 = .ok (numeralValue 16 sign' digits') :=
    (myatoi_eq_ok (Nat.le_refl _)).mpr ⟨_, _, _, _, htext', hnum', rfl, hlow, hhigh⟩
  rw [htext] at hread
  rw [hnum.eq_of_myatoi (Nat.le_refl _) hread] at hlow hhigh ⊢
  unfold u32
  omega

/-- **Chunk sizes.** For every header line that `get_chunk_size` takes: the
size that it returns is the number in front of the first `;` or space or of
the line's end, and adding the chunk's ending does not wrap, exactly when the
text there is a hexadecimal number below `2 ^ 32 - 2`. Counted from behind
the white space, the sign and the `0x` that `strtol` passes over, it is
exactly when the number there is not negative, and below `2 ^ 32 - 2`. -/
theorem chunk_size_faithful_iff {hdr : Bytes} {n : Nat} (hline : NoCrlf hdr)
    (hsize : getChunkSize (hdr ++ crlf) = .ok n) :
    (Writes hdr n ∧ u32 (n + 2) = n + 2 ↔
      IsNumber 16 (sizeText hdr) ∧ digitsValue 16 (sizeText hdr) < 2 ^ 32 - 2) ∧
    ∀ spaces sign lead digits, sizeText hdr = spaces ++ sign ++ lead ++ digits →
      IsNumeral 16 spaces sign lead digits →
      ((n : Int) = numeralValue 16 sign digits ∧ u32 (n + 2) = n + 2 ↔
        0 ≤ numeralValue 16 sign digits ∧ numeralValue 16 sign digits < 2 ^ 32 - 2) := by
  have hhas := (getChunkSize_eq_ok hline).mp hsize
  refine ⟨?_, fun _ _ _ _ htext hnum => hasSize_iff hhas htext hnum⟩
  unfold Writes
  rw [and_assoc]
  refine and_congr_right fun hnumber => ?_
  have hplain := hasSize_iff hhas rfl (isNumeral_of_isNumber hnumber)
  rw [numeralValue, if_neg (by simp)] at hplain
  omega

/-- A line with an extension. -/
theorem chunk_size_faithful_iff_extension :
    Writes (ascii "1a;name=value") 26 ∧ u32 (26 + 2) = 26 + 2 := by
  have hline : NoCrlf (ascii "1a;name=value") := by decide
  have hsize : getChunkSize (ascii "1a;name=value" ++ crlf) = .ok 26 := by decide
  exact (chunk_size_faithful_iff hline hsize).1.mpr ⟨⟨by decide, by decide +kernel⟩, by decide⟩

/-- A chunk of 4 GiB is read as the last one, and for one that is a byte
smaller the two bytes of its ending are added up to one. -/
theorem huge_chunk_is_last :
    getChunkSize (ascii "100000000" ++ crlf) = .ok 0 ∧ Writes (ascii "100000000") (2 ^ 32) ∧
    getChunkSize (ascii "ffffffff" ++ crlf) = .ok (2 ^ 32 - 1) ∧ u32 (2 ^ 32 - 1 + 2) = 1 ∧
    ¬ ∀ hdr n, NoCrlf hdr → getChunkSize (hdr ++ crlf) = .ok n →
      Writes hdr n ∧ u32 (n + 2) = n + 2 := by
  have hread : getChunkSize (ascii "100000000" ++ crlf) = .ok 0 := by decide +kernel
  have hwritten : Writes (ascii "100000000") (2 ^ 32) := ⟨⟨by decide, by decide +kernel⟩, by decide +kernel⟩
  refine ⟨hread, hwritten, by decide +kernel, by decide, fun h => ?_⟩
  have hzero := (h _ _ (by decide) hread).1.2
  rw [hwritten.2] at hzero
  cases hzero

end ChunkedBodyParser

end Mahimahi
