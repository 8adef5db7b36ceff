import Mahimahi.ByteString
import Mahimahi.Loop

/-!
# Tokens between separators

`split` collects the places at which the separator stands, one byte after the other, and
then takes the tokens from between neighbouring places, with lengths that are differences
of `size_t`. Where no two places are nearer to each other than the separator is long, the
tokens are what stands between the separators: joined by it they are the string again, and
none of them has the separator inside. But the search goes on one byte behind a place, and
not behind the separator; where the separator overlaps itself, a length comes out below
zero, the token is all that is left of the string, and the joined tokens are too long
(`split_loses_nothing_iff`, `split_joins_iff`).
-/

namespace Mahimahi

/-! ## The places of a separator -/

section

variable {needle separator s : Bytes} {i j k : Nat}

theorem not_prefix_of_find_eq_none : ∀ {s : Bytes}, find needle s = none → ∀ j, ¬ needle <+: s.drop j
  | [], h, j => by
      intro hp
      rw [List.drop_nil, List.prefix_nil] at hp
      simp [find, hp] at h
  | c :: s, h, 0 => (find_cons_eq_none.mp h).1
  | c :: s, h, j + 1 => not_prefix_of_find_eq_none (s := s) (find_cons_eq_none.mp h).2 j

/-- The first place, and the search one byte behind it. -/
theorem occurrences_of_find (hsep : separator ≠ []) : ∀ {s : Bytes} {i k : Nat},
    find separator s = some k →
    occurrences separator i s = (i + k) :: occurrences separator (i + k + 1) (s.drop (k + 1))
  | [], i, k, h => by
      simp [find, hsep] at h
  | c :: s, i, k, h => by
      rw [occurrences]
      rcases find_cons_eq_some.mp h with ⟨hp, rfl⟩ | ⟨hp, j, hj, rfl⟩
      · rw [if_pos (List.isPrefixOf_iff_prefix.mpr hp)]
        rfl
      · rw [if_neg (mt List.isPrefixOf_iff_prefix.mp hp), occurrences_of_find hsep hj,
          show i + 1 + j = i + (j + 1) by omega]
        rfl

theorem occurrences_of_find_eq_none : ∀ {s : Bytes} {i : Nat}, find separator s = none →
    occurrences separator i s = []
  | [], i, h => by
      rw [occurrences, if_neg]
      intro hempty
      simp [find, hempty] at h
  | c :: s, i, h => by
      obtain ⟨hp, hs⟩ := find_cons_eq_none.mp h
      rw [occurrences, if_neg (mt List.isPrefixOf_iff_prefix.mp hp), occurrences_of_find_eq_none hs]

theorem mem_occurrences (hsep : separator ≠ []) : ∀ {s : Bytes} {i j : Nat},
    j ∈ occurrences separator i s ↔ ∃ k, j = i + k ∧ separator <+: s.drop k
  | [], i, j => by simp [occurrences, hsep]
  | c :: s, i, j => by
      have hrest : j ∈ occurrences separator (i + 1) s ↔
          ∃ k, j = i + (k + 1) ∧ separator <+: (c :: s).drop (k + 1) := by
        simp only [mem_occurrences hsep (s := s), List.drop_succ_cons, Nat.add_assoc, Nat.add_comm 1]
      rw [occurrences]
      split
      · next hp =>
          rw [List.mem_cons, hrest]
          constructor
          · rintro (rfl | ⟨k, hk⟩)
            · exact ⟨0, rfl, List.isPrefixOf_iff_prefix.mp hp⟩
            · exact ⟨k + 1, hk⟩
          · rintro ⟨_ | k, hj, hk⟩
            · exact .inl hj
            · exact .inr ⟨k, hj, hk⟩
      · next hp =>
          rw [hrest]
          constructor
          · rintro ⟨k, hk⟩
            exact ⟨k + 1, hk⟩
          · rintro ⟨_ | k, hj, hk⟩
            · exact absurd (List.isPrefixOf_iff_prefix.mpr hk) hp
            · exact ⟨k, hj, hk⟩

theorem occurrences_sorted (hsep : separator ≠ []) : ∀ {s : Bytes} {i : Nat},
    (occurrences separator i s).Pairwise (· < ·)
  | [], i => by simp [occurrences, hsep]
  | c :: s, i => by
      rw [occurrences]
      split
      · refine List.pairwise_cons.mpr ⟨fun j hj => ?_, occurrences_sorted hsep⟩
        obtain ⟨k, rfl, -⟩ := (mem_occurrences hsep).mp hj
        omega
      · exact occurrences_sorted hsep

theorem add_length_le_of_prefix (hsep : separator ≠ []) (h : separator <+: s.drop i) :
    i + separator.length ≤ s.length := by
  have hle := h.length_le
  have hpos := List.length_pos_iff.mpr hsep
  rw [List.length_drop] at hle
  omega

end

/-! ## The loop that collects the places -/

/-- `find( needle, pos )`. -/
def findFrom (needle s : Bytes) (pos : Nat) : Option Nat :=
  if s.length < pos then none else (find needle (s.drop pos)).map (pos + ·)

/-- One turn of the first loop of `split`: `next_token` and `indices`. -/
def collectTurn (str separator : Bytes) :
    Nat × List Nat → Except Fault ((Nat × List Nat) ⊕ List Nat)
  | (nextToken, indices) =>
      match findFrom separator str nextToken with
      | none => .ok (.inr indices)
      | some i => .ok (.inl (u64 (i + 1), indices ++ [i]))

section

variable {str separator : Bytes} {i : Nat} {js : List Nat}

theorem collect_from (hsep : separator ≠ []) (hlen : str.length < 2 ^ 64) :
    ∀ (n pos : Nat) (indices : List Nat), pos ≤ str.length → str.length < pos + n →
      loop .diverges (collectTurn str separator) n (pos, indices)
        = .ok (indices ++ occurrences separator pos (str.drop pos))
  | 0, pos, indices, hpos, hn => absurd hn (by omega)
  | n + 1, pos, indices, hpos, hn => by
      rw [loop, collectTurn, findFrom, if_neg (Nat.not_lt.mpr hpos)]
      cases hfind : find separator (str.drop pos) with
      | none => simp [occurrences_of_find_eq_none hfind]
      | some k =>
          have hplace : separator <+: str.drop (pos + k) := by
            simpa [Nat.add_comm] using find_prefix hfind
          have hend := add_length_le_of_prefix hsep hplace
          have hne := List.length_pos_iff.mpr hsep
          have hnext : u64 (pos + k + 1) = pos + k + 1 := u64_of_lt (by omega)
          simp only [Option.map_some, hnext]
          rw [collect_from hsep hlen n (pos + k + 1) (indices ++ [pos + k]) (by omega) (by omega),
            occurrences_of_find hsep hfind, List.drop_drop, List.append_assoc]
          rfl

/-- **The first loop of `split`** comes to an end, with all places of the separator. -/
theorem collect_occurrences (hsep : separator ≠ []) (hlen : str.length < 2 ^ 64) :
    loop .diverges (collectTurn str separator) (str.length + 1) (0, [])
      = .ok (occurrences separator 0 str) := by
  simpa using collect_from hsep hlen (str.length + 1) 0 [] (Nat.zero_le _) (by omega)

/-! ## What the tokens should be -/

/-- Where the separator stands at two places, they are at least its length apart. -/
def NoOverlap (str separator : Bytes) : Prop :=
  ∀ i j, i < j → separator <+: str.drop i → separator <+: str.drop j → i + separator.length ≤ j

/-- Neither of the two subtractions `indices[ i + 1 ] - indices[ i ] - separator.size()`
goes below zero. -/
def LengthFits (separator : Bytes) (i j : Nat) : Prop := i ≤ j ∧ separator.length ≤ j - i

instance : DecidableRel (LengthFits separator) := fun i j =>
  inferInstanceAs (Decidable (i ≤ j ∧ separator.length ≤ j - i))

/-- Nothing is lost: the tokens joined by the separator are the string, no length that has
been computed for `substr` goes below zero, and no token has the separator inside. -/
structure Tokenizes (str separator : Bytes) (tokens : List Bytes) : Prop where
  joined : separator.intercalate tokens = str
  lengths : (occurrences separator 0 str).IsChain (LengthFits separator)
  free : ∀ token ∈ tokens, ¬ separator <:+: token

theorem intercalate_cons (separator token : Bytes) (tokens : List Bytes) :
    separator.intercalate (token :: tokens) = token ++ tokens.flatMap (separator ++ ·) := by
  induction tokens generalizing token with
  | nil => simp
  | cons next tokens ih =>
      rw [List.intercalate_cons_cons, ih, List.flatMap_cons, List.append_assoc, List.append_assoc]

theorem not_infix_take {s : Bytes} {n : Nat}
    (h : ∀ m, m + separator.length ≤ n → ¬ separator <+: s.drop m) : ¬ separator <:+: s.take n := by
  rintro ⟨before, after, heq⟩
  have hle : before.length + separator.length ≤ n := by
    have hlength := congrArg List.length heq
    simp only [List.length_append, List.length_take] at hlength
    omega
  have hs : before ++ (separator ++ (after ++ s.drop n)) = s := by
    simp only [← List.append_assoc, heq, List.take_append_drop]
  have hplace : separator <+: (before ++ (separator ++ (after ++ s.drop n))).drop before.length := by
    rw [List.drop_left]
    exact List.prefix_append _ _
  rw [hs] at hplace
  exact h before.length hle hplace

/-- The next place, if there is one: the places behind it are those behind the last one, and
in between the separator does not stand. -/
theorem occurrences_cons (hsep : separator ≠ []) {j : Nat}
    (hjs : j :: js = occurrences separator (i + 1) (str.drop (i + 1))) :
    i < j ∧ separator <+: str.drop j ∧ js = occurrences separator (j + 1) (str.drop (j + 1)) ∧
      ∀ m, i < m → m < j → ¬ separator <+: str.drop m := by
  cases hfind : find separator (str.drop (i + 1)) with
  | none =>
      rw [occurrences_of_find_eq_none hfind] at hjs
      cases hjs
  | some k =>
      rw [occurrences_of_find hsep hfind, List.drop_drop] at hjs
      obtain ⟨rfl, rfl⟩ := List.cons.inj hjs
      have hplace := find_prefix hfind
      rw [List.drop_drop] at hplace
      refine ⟨by omega, hplace, rfl, fun m hi hm => ?_⟩
      have hnot := not_prefix_of_find hfind (show m - (i + 1) < k by omega)
      rwa [List.drop_drop, show i + 1 + (m - (i + 1)) = m by omega] at hnot

theorem occurrences_nil (hsep : separator ≠ [])
    (hjs : [] = occurrences separator (i + 1) (str.drop (i + 1))) (m : Nat) (hm : i < m) :
    ¬ separator <+: str.drop m := by
  cases hfind : find separator (str.drop (i + 1)) with
  | none =>
      have hnot := not_prefix_of_find_eq_none hfind (m - (i + 1))
      rwa [List.drop_drop, show i + 1 + (m - (i + 1)) = m by omega] at hnot
  | some k =>
      rw [occurrences_of_find hsep hfind] at hjs
      cases hjs

/-- The lengths between neighbouring places say the same of any two places. -/
theorem lengths_iff (hsep : separator ≠ []) :
    (occurrences separator 0 str).IsChain (LengthFits separator) ↔ NoOverlap str separator := by
  have hmem : ∀ {j}, j ∈ occurrences separator 0 str ↔ separator <+: str.drop j := by
    intro j
    simp [mem_occurrences hsep]
  constructor
  · intro hchain i j hij hi hj
    have htrans : IsTrans Nat fun i j => i + separator.length ≤ j := ⟨by omega⟩
    have hapart : (occurrences separator 0 str).IsChain fun i j => i + separator.length ≤ j :=
      hchain.imp fun i j hfits => by
        obtain ⟨hle, hwidth⟩ := hfits
        omega
    have hpairs : (occurrences separator 0 str).Pairwise
        fun i j => i + separator.length ≤ j ∨ j + separator.length ≤ i :=
      (List.isChain_iff_pairwise.mp hapart).imp Or.inl
    have hsymm : Std.Symm fun i j => i + separator.length ≤ j ∨ j + separator.length ≤ i :=
      ⟨fun _ _ => Or.symm⟩
    rcases hpairs.forall (hmem.mpr hi) (hmem.mpr hj) (Nat.ne_of_lt hij) with h | h
    · exact h
    · omega
  · intro hno
    refine List.Pairwise.isChain ((occurrences_sorted hsep).imp_of_mem fun hi hj hij => ?_)
    have hapart := hno _ _ hij (hmem.mp hi) (hmem.mp hj)
    exact ⟨Nat.le_of_lt hij, by omega⟩

/-! ## Without overlaps -/

/-- The tokens behind a place, each with the separator in front of it, are the rest of the
string. -/
theorem innerTokens_joined (hsep : separator ≠ []) (hlen : str.length < 2 ^ 64)
    (hno : NoOverlap str separator) : ∀ {js : List Nat} {i : Nat},
    js = occurrences separator (i + 1) (str.drop (i + 1)) → separator <+: str.drop i →
    ∃ ts, innerTokens str separator i js = .ok ts ∧ ts.flatMap (separator ++ ·) = str.drop i ∧
      ∀ t ∈ ts, ¬ separator <:+: t
  | js, i, hjs, hi => by
      have hne := List.length_pos_iff.mpr hsep
      have hend := add_length_le_of_prefix hsep hi
      have hrest : separator ++ str.drop (i + separator.length) = str.drop i := by
        rw [← List.drop_drop]
        exact (List.prefix_append_drop hi).symm
      cases js with
      | nil =>
          have hlast : (str.drop (i + separator.length)).take npos
              = str.drop (i + separator.length) := by
            refine List.take_of_length_le ?_
            have : npos = 2 ^ 64 - 1 := rfl
            rw [List.length_drop]
            omega
          refine ⟨[str.drop (i + separator.length)], ?_, by simpa using hrest, ?_⟩
          · rw [innerTokens, substr_of_le hend, hlast]
            rfl
          · rw [List.forall_mem_singleton, ← hlast]
            refine not_infix_take fun m _ => ?_
            rw [List.drop_drop]
            exact occurrences_nil hsep hjs _ (by omega)
      | cons j js =>
          obtain ⟨hij, hj, hjs', hbetween⟩ := occurrences_cons hsep hjs
          have hfits := hno i j hij hi hj
          obtain ⟨ts, hts, hjoined, hfree⟩ := innerTokens_joined hsep hlen hno hjs' hj
          have hwidth : sub64 (sub64 j i) separator.length = j - i - separator.length := by
            rw [sub64_of_le (Nat.le_of_lt hij), sub64_of_le (by omega)]
          refine ⟨(str.drop (i + separator.length)).take (j - i - separator.length) :: ts, ?_, ?_, ?_⟩
          · rw [innerTokens, hwidth, substr_of_le hend, ok_bind, hts]
            rfl
          · have hskip : (str.drop (i + separator.length)).drop (j - i - separator.length)
                = str.drop j := by
              rw [List.drop_drop, show i + separator.length + (j - i - separator.length) = j by omega]
            rw [List.flatMap_cons, hjoined, ← hskip, List.append_assoc, List.take_append_drop, hrest]
          · refine List.forall_mem_cons.mpr ⟨not_infix_take fun m hm => ?_, hfree⟩
            rw [List.drop_drop]
            exact hbetween _ (by omega) (by omega)

theorem split_of_find (hsep : separator ≠ []) (hfind : find separator str = some i) :
    split str separator = (str.take i :: ·) <$>
      innerTokens str separator i (occurrences separator (i + 1) (str.drop (i + 1))) := by
  rw [split, occurrences_of_find hsep hfind]
  dsimp only
  rw [Nat.zero_add, substr_of_le (Nat.zero_le _), ok_bind, List.drop_zero]
  rfl

/-- Where no places overlap, nothing is lost. -/
theorem split_tokenizes (hsep : separator ≠ []) (hlen : str.length < 2 ^ 64)
    (hno : NoOverlap str separator) :
    ∃ tokens, split str separator = .ok tokens ∧ Tokenizes str separator tokens := by
  have hlengths := (lengths_iff hsep).mpr hno
  cases hfind : find separator str with
  | none =>
      refine ⟨[str], ?_, List.intercalate_singleton, hlengths, ?_⟩
      · rw [split, occurrences_of_find_eq_none hfind]
      · rw [List.forall_mem_singleton, ← List.take_length (l := str)]
        exact not_infix_take fun m _ => not_prefix_of_find_eq_none hfind m
  | some i =>
      have hi : separator <+: str.drop i := find_prefix hfind
      have hend := add_length_le_of_prefix hsep hi
      obtain ⟨ts, hts, hjoined, hfree⟩ := innerTokens_joined hsep hlen hno rfl hi
      refine ⟨str.take i :: ts, ?_, ?_, hlengths,
        List.forall_mem_cons.mpr ⟨not_infix_take fun m hm => ?_, hfree⟩⟩
      · rw [split_of_find hsep hfind, hts]
        rfl
      · rw [intercalate_cons, hjoined, List.take_append_drop]
      · have hpos := List.length_pos_iff.mpr hsep
        exact not_prefix_of_find hfind (by omega)

theorem split_ne_nil {tokens : List Bytes} (h : split str separator = .ok tokens) : tokens ≠ [] := by
  rintro rfl
  rw [split] at h
  cases hocc : occurrences separator 0 str with
  | nil =>
      rw [hocc] at h
      cases h
  | cons i indices =>
      rw [hocc] at h
      obtain ⟨first, -, h⟩ := bind_eq_ok.mp h
      obtain ⟨ts, -, h⟩ := bind_eq_ok.mp h
      cases h

/-- Two places of one byte do not overlap: this is what the calls of `split` rest on, that
take the words of a status line, a list of codings and the parts of a media type. -/
theorem split_byte_tokenizes (b : UInt8) (hlen : str.length < 2 ^ 64) :
    ∃ tokens, split str [b] = .ok tokens ∧ Tokenizes str [b] tokens :=
  split_tokenizes (List.cons_ne_nil _ _) hlen fun _ _ hij _ _ => hij

/-- `split` cuts at every separator. -/
theorem split_byte {c : UInt8} {s : Bytes} (hlen : s.length < 2 ^ 64) :
    split s [c] = .ok (s.splitOn c) := by
  obtain ⟨tokens, htokens, hall⟩ := split_byte_tokenizes c hlen
  have hfree : ∀ token ∈ tokens, c ∉ token := by
    intro token htoken hmem
    exact hall.free token htoken ((List.singleton_infix_iff _ _).mpr hmem)
  have hcut := List.splitOn_intercalate c hfree (split_ne_nil htokens)
  rw [hall.joined] at hcut
  rw [htokens, hcut]

/-! ## With an overlap -/

/-- The tokens behind a place are never too short: where the difference of two places is
below zero, the token goes to the end of the string, and the one behind it comes on top. -/
theorem innerTokens_length (hsep : separator ≠ []) (hlen : str.length < 2 ^ 64) :
    ∀ {js : List Nat} {i : Nat},
    js = occurrences separator (i + 1) (str.drop (i + 1)) → separator <+: str.drop i →
    ∃ ts, innerTokens str separator i js = .ok ts ∧
      str.length ≤ i + (ts.flatMap (separator ++ ·)).length ∧
      (str.length = i + (ts.flatMap (separator ++ ·)).length →
        (i :: js).IsChain (LengthFits separator))
  | js, i, hjs, hi => by
      have hne := List.length_pos_iff.mpr hsep
      have hend := add_length_le_of_prefix hsep hi
      cases js with
      | nil =>
          refine ⟨[(str.drop (i + separator.length)).take npos], ?_, ?_, fun _ => .singleton i⟩
          · rw [innerTokens, substr_of_le hend]
            rfl
          · have hnpos : npos = 2 ^ 64 - 1 := rfl
            simp only [List.flatMap_singleton, List.length_append, List.length_take, List.length_drop]
            omega
      | cons j js =>
          obtain ⟨hij, hj, hjs', -⟩ := occurrences_cons hsep hjs
          have hjend := add_length_le_of_prefix hsep hj
          obtain ⟨ts, hts, hle, hchain⟩ := innerTokens_length hsep hlen hjs' hj
          refine ⟨(str.drop (i + separator.length)).take (sub64 (sub64 j i) separator.length) :: ts,
            ?_, ?_⟩
          · rw [innerTokens, substr_of_le hend, ok_bind, hts]
            rfl
          · rw [List.flatMap_cons, List.length_append, List.length_append, List.length_take,
              List.length_drop, sub64_of_le (Nat.le_of_lt hij), List.isChain_cons_cons]
            by_cases hfits : i + separator.length ≤ j
            · rw [sub64_of_le (by omega)]
              exact ⟨by omega, fun heq => ⟨⟨Nat.le_of_lt hij, by omega⟩, hchain (by omega)⟩⟩
            · have hwide : str.length - (i + separator.length) ≤ sub64 (j - i) separator.length := by
                rw [sub64, if_neg (by omega)]
                omega
              rw [Nat.min_eq_right hwide]
              exact ⟨by omega, fun heq => absurd heq (by omega)⟩

/-- **When the joined tokens are the string.** `split` throws for no string; what it
returns can be joined again to the string if and only if no places overlap. -/
theorem split_joins_iff (hsep : separator ≠ []) (hlen : str.length < 2 ^ 64) :
    (∃ tokens, split str separator = .ok tokens ∧ separator.intercalate tokens = str) ↔
      NoOverlap str separator := by
  constructor
  · rintro ⟨tokens, htokens, hjoined⟩
    rw [← lengths_iff hsep]
    cases hfind : find separator str with
    | none =>
        rw [occurrences_of_find_eq_none hfind]
        exact .nil
    | some i =>
        have hi : separator <+: str.drop i := find_prefix hfind
        have hend := add_length_le_of_prefix hsep hi
        obtain ⟨ts, hts, -, hchain⟩ := innerTokens_length hsep hlen rfl hi
        rw [split_of_find hsep hfind, hts] at htokens
        obtain rfl := Except.ok.inj htokens
        rw [occurrences_of_find hsep hfind, Nat.zero_add]
        refine hchain ?_
        have hlength := congrArg List.length hjoined
        rw [intercalate_cons, List.length_append, List.length_take] at hlength
        omega
  · intro hno
    obtain ⟨tokens, htokens, hall⟩ := split_tokenizes hsep hlen hno
    exact ⟨tokens, htokens, hall.joined⟩

/-- **When nothing is lost**: if and only if the separator stands nowhere within its own
length of another place. -/
theorem split_loses_nothing_iff (hsep : separator ≠ []) (hlen : str.length < 2 ^ 64) :
    (∃ tokens, split str separator = .ok tokens ∧ Tokenizes str separator tokens) ↔
      NoOverlap str separator := by
  constructor
  · rintro ⟨tokens, -, hall⟩
    exact (lengths_iff hsep).mp hall.lengths
  · exact split_tokenizes hsep hlen

end

theorem split_comma_blank : NoOverlap (ascii "gzip, , chunked, ") (ascii ", ") ∧
    ∃ tokens, split (ascii "gzip, , chunked, ") (ascii ", ") = .ok tokens ∧
      Tokenizes (ascii "gzip, , chunked, ") (ascii ", ") tokens := by
  have hno : NoOverlap (ascii "gzip, , chunked, ") (ascii ", ") :=
    (lengths_iff (by decide)).mp (by decide)
  exact ⟨hno, (split_loses_nothing_iff (by decide) (by decide)).mpr hno⟩

/-- The places 0 and 1 overlap: the length between them is `SIZE_MAX`, and the middle token
is the `a` that both places have already taken. -/
theorem split_overlap : split (ascii "aaa") (ascii "aa") = .ok [[], ascii "a", []] ∧
    (ascii "aa").intercalate [[], ascii "a", []] = ascii "aaaaa" ∧
    sub64 (sub64 1 0) (ascii "aa").length = 2 ^ 64 - 1 ∧
    ¬ ∃ tokens, split (ascii "aaa") (ascii "aa") = .ok tokens ∧
      Tokenizes (ascii "aaa") (ascii "aa") tokens := by
  have hsplit : split (ascii "aaa") (ascii "aa") = .ok [[], ascii "a", []] := by decide
  refine ⟨hsplit, by decide, by decide, ?_⟩
  rintro ⟨tokens, htokens, hall⟩
  rw [hsplit] at htokens
  obtain rfl := Except.ok.inj htokens
  exact absurd hall.joined (by decide)

end Mahimahi
