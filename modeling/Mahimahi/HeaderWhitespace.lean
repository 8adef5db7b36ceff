import Mathlib.Data.List.DropRight
import Mahimahi.RequestFraming

/-!
# White space in front of a text and behind it

Spaces and tabs around the value of a header mean nothing to HTTP. The code takes
white space off in three places, and each time something else: `HTTPHeader` the
spaces in front of the value (`fieldValue`), `equivalent_strings` the spaces in front
of what it compares (`Is`), `strtol` any white space in front of the number
(`Denotes`). None takes anything off at the end.

For each of the last two, `is_around` and `denotes_around` say what white space on
either side does to the outcome; what `HTTPHeader` takes off makes no difference to
them (`is_fieldValue`, `denotes_fieldValue`).
-/

namespace Mahimahi

/-! ## Spaces and tabs -/

/-- Linear white space. -/
def IsLws (s : Bytes) : Prop := ∀ c ∈ s, c = 32 ∨ c = 9

instance (s : Bytes) : Decidable (IsLws s) := inferInstanceAs (Decidable (∀ c ∈ s, _))

theorem IsLws.append {s t : Bytes} (hs : IsLws s) (ht : IsLws t) : IsLws (s ++ t) := by
  intro c hc
  rcases List.mem_append.mp hc with hc | hc
  · exact hs c hc
  · exact ht c hc

theorem IsLws.of_cons {c : UInt8} {s : Bytes} (h : IsLws (c :: s)) : IsLws s :=
  fun d hd => h d (List.mem_cons_of_mem _ hd)

theorem isLws_replicate (n : Nat) : IsLws (List.replicate n 32) :=
  fun _ hc => .inl (List.eq_of_mem_replicate hc)

theorem IsLws.not_mem {s : Bytes} (h : IsLws s) {c : UInt8} (h32 : c ≠ 32) (h9 : c ≠ 9) : c ∉ s := by
  intro hc
  rcases h c hc with rfl | rfl
  · exact h32 rfl
  · exact h9 rfl

/-- What the constructor of `HTTPHeader` makes of the text behind the colon. -/
def fieldValue (text : Bytes) : Bytes :=
  match findFirstNotOf (ascii " ") text with
  | none => text
  | some firstNonspace => text.drop firstNonspace

theorem HTTPHeader.ofLine_eq {key : Bytes} (text : Bytes) (h : 58 ∉ key) :
    HTTPHeader.ofLine (key ++ 58 :: text) = .ok ⟨key, fieldValue text⟩ := by
  have hcolon : find (ascii ":") (key ++ 58 :: text) = some key.length := find_byte_eq_some h
  have hdrop : (key ++ 58 :: text).drop (key.length + 1) = text := by
    rw [List.append_cons, List.drop_left' (by simp)]
  rw [HTTPHeader.ofLine, hcolon]
  dsimp only
  rw [hdrop, List.take_left]
  rfl

theorem stripInitialWhitespace_eq (s : Bytes) :
    stripInitialWhitespace s = s.dropWhile (· == 32) := by
  have hspace : ascii " " = [32] := by rfl
  rw [stripInitialWhitespace, hspace]
  cases hfind : findFirstNotOf [32] s with
  | none =>
      have hall := findFirstNotOf_eq_none.mp hfind
      refine (List.dropWhile_eq_nil_iff.mpr fun c hc => ?_).symm
      rw [hall] at hc
      exact beq_iff_eq.mpr (List.eq_of_mem_replicate hc)
  | some k =>
      obtain ⟨d, t, hd, rfl⟩ := findFirstNotOf_eq_some.mp hfind
      dsimp only
      rw [List.drop_left' (by simp), List.dropWhile_append_of_pos]
      · rw [List.dropWhile_cons, if_neg (by simpa using hd)]
      · intro c hc
        exact beq_iff_eq.mpr (List.eq_of_mem_replicate hc)

/-- Spaces in front are taken off, unless there is nothing else. -/
theorem fieldValue_eq (text : Bytes) :
    fieldValue text = if text.dropWhile (· == 32) = [] then text else text.dropWhile (· == 32) := by
  have hspace : ascii " " = [32] := by rfl
  have hstrip := stripInitialWhitespace_eq text
  rw [stripInitialWhitespace, hspace] at hstrip
  rw [← hstrip, fieldValue, hspace]
  cases hfind : findFirstNotOf [32] text with
  | none => simp
  | some k =>
      obtain ⟨d, t, hd, htext⟩ := findFirstNotOf_eq_some.mp hfind
      have hne : text.drop k ≠ [] := by simp [htext]
      dsimp only
      rw [if_neg hne]

theorem exists_fieldValue (text : Bytes) :
    ∃ n, text = List.replicate n 32 ++ fieldValue text := by
  rw [fieldValue_eq]
  split
  · exact ⟨0, rfl⟩
  · have hspaces : ∀ c ∈ text.takeWhile (· == 32), c = 32 := by
      intro c hc
      have htest := List.mem_takeWhile_imp hc
      exact beq_iff_eq.mp htest
    refine ⟨(text.takeWhile (· == 32)).length, ?_⟩
    rw [← List.eq_replicate_length.mpr hspaces, List.takeWhile_append_dropWhile]

theorem fieldValue_eq_nil {text : Bytes} (h : fieldValue text = []) : text = [] := by
  rw [fieldValue_eq] at h
  split at h
  · exact h
  · next hne => exact absurd h hne

/-- In front of a byte that is no space, all spaces are taken off. -/
theorem fieldValue_append_cons {c : UInt8} (hc : c ≠ 32) (l r : Bytes) :
    fieldValue (l ++ c :: r) = l.dropWhile (· == 32) ++ c :: r := by
  have hdrop : (l ++ c :: r).dropWhile (· == 32) = l.dropWhile (· == 32) ++ c :: r := by
    have hcons : (c :: r).dropWhile (· == 32) = c :: r := by
      rw [List.dropWhile_cons, if_neg (by simpa using hc)]
    rw [List.dropWhile_append]
    split
    · next hempty => rw [hcons, List.isEmpty_iff.mp hempty, List.nil_append]
    · rfl
  rw [fieldValue_eq, hdrop, if_neg (by simp)]

theorem not_mem_fieldValue {c : UInt8} {text : Bytes} (h : c ∉ text) : c ∉ fieldValue text := by
  obtain ⟨n, htext⟩ := exists_fieldValue text
  intro hc
  exact h (htext ▸ List.mem_append_right _ hc)

theorem fieldValue_length_le (text : Bytes) : (fieldValue text).length ≤ text.length := by
  obtain ⟨n, htext⟩ := exists_fieldValue text
  have := congrArg List.length htext
  rw [List.length_append] at this
  omega

/-! ## Comparison with a word -/

/-- A word that the code compares with: in lower case, and without white space at its
ends. -/
structure IsWord (word : Bytes) : Prop where
  lower : word.map httpToLower = word
  first : ∃ c t, word = c :: t ∧ c ≠ 32 ∧ c ≠ 9
  last : ∀ c, word.getLast? = some c → c ≠ 32 ∧ c ≠ 9

/-- The strings are the same in lower case, behind initial spaces. -/
theorem equivalentStrings_iff {a b : Bytes} : equivalentStrings a b = true ↔
    (stripInitialWhitespace a).map httpToLower = (stripInitialWhitespace b).map httpToLower := by
  have hzip : ∀ x y : Bytes, (x.length == y.length &&
      (x.zip y).all fun c => httpToLower c.1 == httpToLower c.2) = true ↔
      x.map httpToLower = y.map httpToLower := by
    intro x
    induction x with
    | nil => intro y; cases y <;> simp
    | cons c x ih =>
        intro y
        cases y with
        | nil => simp
        | cons d y =>
            have := ih y
            simp only [Bool.and_eq_true, beq_iff_eq, List.length_cons, Nat.add_right_cancel_iff,
              List.zip_cons_cons, List.all_cons, List.map_cons, List.cons.injEq] at this ⊢
            rw [← this]
            tauto
  exact hzip _ _

/-- `s` is the word, but for its case and spaces in front. -/
def Is (word s : Bytes) : Prop := (s.dropWhile (· == 32)).map httpToLower = word

theorem equivalentStrings_word {word s : Bytes} (h : IsWord word) :
    equivalentStrings s word = true ↔ Is word s := by
  obtain ⟨c, t, hword, h32, -⟩ := h.first
  have hstrip : stripInitialWhitespace word = word := by
    rw [stripInitialWhitespace_eq, hword, List.dropWhile_cons, if_neg (by simpa using h32)]
  rw [equivalentStrings_iff, hstrip, h.lower, stripInitialWhitespace_eq, Is]

theorem is_append_front {word : Bytes} (h : IsWord word) : ∀ {w : Bytes} (s : Bytes), IsLws w →
    (Is word (w ++ s) ↔ 9 ∉ w ∧ Is word s)
  | [], s, _ => by simp
  | c :: w, s, hw => by
      have ih := is_append_front h s hw.of_cons
      rcases hw c (by simp) with rfl | rfl
      · have hcons : Is word (32 :: w ++ s) ↔ Is word (w ++ s) := by simp [Is]
        rw [hcons, ih]
        simp
      · obtain ⟨d, t, hword, -, h9⟩ := h.first
        have hno : ¬ Is word (9 :: w ++ s) := by
          intro his
          have hhead : httpToLower 9 :: (w ++ s).map httpToLower = word := by simpa [Is] using his
          rw [hword] at hhead
          exact h9 (List.cons.inj hhead).1.symm
        exact iff_of_false hno fun h => h.1 List.mem_cons_self

theorem is_append_back {word s b : Bytes} (h : IsWord word) (hb : IsLws b)
    (his : Is word (s ++ b)) : b = [] := by
  by_contra hne
  obtain ⟨init, c, rfl⟩ := (List.eq_nil_or_concat' b).resolve_left hne
  obtain ⟨d, t, hword, -, -⟩ := h.first
  obtain ⟨front, hfront⟩ := List.dropWhile_suffix (· == 32) (l := s ++ (init ++ [c]))
  rw [Is] at his
  rcases List.eq_nil_or_concat' ((s ++ (init ++ [c])).dropWhile (· == 32)) with hnil | ⟨y, e, hy⟩
  · rw [hnil, hword] at his
    cases his
  · rw [hy, ← List.append_assoc, ← List.append_assoc] at hfront
    obtain rfl : e = c := List.singleton_inj.mp (List.append_inj' hfront rfl).2
    rw [hy, List.map_append, List.map_singleton] at his
    have hlast := h.last (httpToLower e) (by rw [← his]; simp)
    rcases hb e (by simp) with rfl | rfl
    · exact hlast.1 rfl
    · exact hlast.2 rfl

theorem is_around {word w u t : Bytes} (h : IsWord word) (hw : IsLws w) (ht : IsLws t) :
    Is word (w ++ u ++ t) ↔ 9 ∉ w ∧ Is word u ∧ t = [] := by
  rw [List.append_assoc, is_append_front h _ hw]
  refine and_congr_right fun _ => ⟨fun his => ?_, ?_⟩
  · have hnil := is_append_back h ht his
    rw [hnil, List.append_nil] at his
    exact ⟨his, hnil⟩
  · rintro ⟨his, rfl⟩
    rwa [List.append_nil]

theorem is_dropWhile (word text : Bytes) : Is word (text.dropWhile (· == 32)) ↔ Is word text := by
  rw [Is, Is, List.dropWhile_idempotent]

theorem is_fieldValue {word : Bytes} (h : IsWord word) (text : Bytes) :
    Is word (fieldValue text) ↔ Is word text := by
  obtain ⟨n, htext⟩ := exists_fieldValue text
  have hno : (9 : UInt8) ∉ List.replicate n 32 := fun hmem =>
    absurd (List.eq_of_mem_replicate hmem) (by decide)
  conv_rhs => rw [htext, is_append_front h _ (isLws_replicate n)]
  exact (and_iff_right hno).symm

/-! ## Numbers -/

theorem IsLws.isSpace {s : Bytes} (h : IsLws s) : ∀ c ∈ s, isSpace c = true := by
  intro c hc
  rcases h c hc with rfl | rfl <;> rfl

theorem denotes_append_front {z : Int} : ∀ {w : Bytes} (s : Bytes), IsLws w →
    (Denotes (w ++ s) z ↔ Denotes s z)
  | [], s, _ => by simp
  | c :: w, s, hw => by
      rw [← denotes_append_front s hw.of_cons]
      have hc := hw.isSpace c (by simp)
      constructor
      · rintro ⟨spaces, sign, digits, htext, hnumeral, hz⟩
        cases spaces with
        | nil =>
            have hsigned := (hnumeral.signedAt (by decide)).unspaced c (by
              simp only [List.nil_append] at htext
              simp [← htext])
            rw [hc] at hsigned
            cases hsigned
        | cons d spaces =>
            obtain ⟨-, htext⟩ := List.cons.inj htext
            exact ⟨spaces, sign, digits, htext, { hnumeral with
              white := fun e he => hnumeral.white e (List.mem_cons_of_mem _ he) }, hz⟩
      · rintro ⟨spaces, sign, digits, htext, hnumeral, hz⟩
        refine ⟨c :: spaces, sign, digits, congrArg (c :: ·) htext, { hnumeral with
          white := fun e he => ?_ }, hz⟩
        rcases List.mem_cons.mp he with rfl | he
        · exact hc
        · exact hnumeral.white e he

theorem denotes_append_back {s b : Bytes} {z : Int} (hb : IsLws b) (h : Denotes (s ++ b) z) :
    b = [] := by
  by_contra hne
  obtain ⟨init, c, rfl⟩ := (List.eq_nil_or_concat' b).resolve_left hne
  obtain ⟨spaces, sign, digits, htext, hnumeral, -⟩ := h
  obtain ⟨most, d, rfl⟩ := (List.eq_nil_or_concat' digits).resolve_left hnumeral.number.nonempty
  rw [← List.append_assoc, ← List.append_assoc] at htext
  obtain rfl : c = d := List.singleton_inj.mp (List.append_inj' htext rfl).2
  have hdigit := isDigitOf_facts (by decide) (hnumeral.number.digits c (by simp))
  rw [hb.isSpace c (by simp)] at hdigit
  cases hdigit.1

theorem denotes_around {w u t : Bytes} {z : Int} (hw : IsLws w) (ht : IsLws t) :
    Denotes (w ++ u ++ t) z ↔ Denotes u z ∧ t = [] := by
  rw [List.append_assoc, denotes_append_front _ hw]
  constructor
  · intro h
    have hnil := denotes_append_back ht h
    rw [hnil, List.append_nil] at h
    exact ⟨h, hnil⟩
  · rintro ⟨h, rfl⟩
    rwa [List.append_nil]

theorem denotes_fieldValue {z : Int} (text : Bytes) :
    Denotes (fieldValue text) z ↔ Denotes text z := by
  obtain ⟨n, htext⟩ := exists_fieldValue text
  conv_rhs => rw [htext, denotes_append_front _ (isLws_replicate n)]

end Mahimahi
