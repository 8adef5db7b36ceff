import Mahimahi.DelayRule

/-!
# The arguments of a queue

A queue is configured by a text such as `packets=100, bytes=3000`. `get_arg` looks for
the name in the text, and reads the digits behind the `=` sign.

A search passes over a piece of the text if it finds nothing that begins in it, whatever
follows (`PassesOver`). That goes for every entry with another name, since no name is
part of another, and for what is between the entries; so the place that is found is that
of the entry with the name (`find_entry`), and its digits end where the entry ends. The
number goes through a `long` into an `unsigned int`: it arrives, or is refused, unless it
is between the two (`get_arg_right_iff`).
-/

namespace Mahimahi

/-! ## get_arg -/

/-- `substr( pos )`. -/
def substrFrom (s : Bytes) (pos : Nat) : Except Fault Bytes :=
  if s.length < pos then .error .outOfRange else .ok (s.drop pos)

def getArg (args name : Bytes) : Except Fault Nat :=
  match find name args with
  | none => .ok 0 -- default value
  | some offset => do
      let offset := offset + name.length
      if (← substr args offset 1) ≠ ascii "=" then
        throw (.runtimeErrorWith "could not parse queue arguments: " args)
      let rest ← substrFrom args (offset + 1)
      let digitString ← match findFirstNotOf (ascii "0123456789") rest with
        | none => substrFrom rest 0
        | some offset2 => substr rest 0 offset2
      if digitString.isEmpty then
        throw (.runtimeErrorWith "could not parse queue arguments: " args)
      let value ← myatoi digitString 10
      return uint32 value

/-! ## Arguments that are written -/

/-- The names that the usage message lists. -/
inductive QueueArgName where
  | bytes
  | packets
  | target
  | interval
  | qdelayRef
  | maxBurst
  deriving DecidableEq, Repr

namespace QueueArgName

def text : QueueArgName → Bytes
  | bytes => ascii "bytes"
  | packets => ascii "packets"
  | target => ascii "target"
  | interval => ascii "interval"
  | qdelayRef => ascii "qdelay_ref"
  | maxBurst => ascii "max_burst"

variable {name name' : QueueArgName} {c : UInt8}

theorem text_ne_nil : name.text ≠ [] := by
  cases name <;> simp [text, ascii]

/-- No name is part of another. -/
theorem not_infix (h : name' ≠ name) : ¬ name.text <:+: name'.text := by
  cases name <;> cases name' <;> first | exact absurd rfl h | decide

theorem letter_of_mem (h : c ∈ name.text) : 95 ≤ c := by
  have hall : ∀ c ∈ name.text, (95 : UInt8) ≤ c := by cases name <;> decide +kernel
  exact hall c h

end QueueArgName

/-- A name, and the digits that are written for it. -/
abbrev QueueArg := QueueArgName × Bytes

/-- `NAME=NUMBER` -/
def QueueArg.text (a : QueueArg) : Bytes := a.1.text ++ [61] ++ a.2

/-- `, NAME2=NUMBER2, ...` -/
def moreArgs (l : List QueueArg) : Bytes := l.flatMap fun a => ascii ", " ++ a.text

/-- `NAME=NUMBER[, NAME2=NUMBER2, ...]`, or nothing at all. -/
def queueArgs : List QueueArg → Bytes
  | [] => []
  | a :: l => a.text ++ moreArgs l

/-- What is written for the name is what the queue gets: its number, or an exception if
that is no `unsigned int`, and 0 if the name is absent. -/
def MeansWhatIsWritten (l : List QueueArg) (name : QueueArgName) : Prop :=
  (∀ digits, (name, digits) ∈ l →
    getArg (queueArgs l) name.text = .ok (digitsValue 10 digits) ∨
      2 ^ 32 ≤ digitsValue 10 digits ∧ ∃ e, getArg (queueArgs l) name.text = .error e) ∧
  ((∀ a ∈ l, a.1 ≠ name) → getArg (queueArgs l) name.text = .ok 0)

/-! ## Where a name is found -/

/-- A search finds nothing that begins in `x`, whatever follows. -/
def PassesOver (needle x : Bytes) : Prop :=
  ∀ s, find needle (x ++ s) = (find needle s).map (· + x.length)

namespace PassesOver

variable {needle x y w : Bytes} {c : UInt8}

theorem nil : PassesOver needle [] := by
  intro s
  simp

theorem append (hx : PassesOver needle x) (hy : PassesOver needle y) :
    PassesOver needle (x ++ y) := by
  intro s
  rw [List.append_assoc, hx, hy, Option.map_map, List.length_append]
  congr 1
  funext k
  simp only [Function.comp_apply]
  omega

/-- A word that the needle is no part of, with a character behind it that the needle does
not have. -/
theorem word (hw : ¬ needle <:+: w) (hc : c ∉ needle) :
    PassesOver needle (w ++ [c]) := by
  intro s
  have hdrop := find_drop needle (w ++ [c] ++ s) (w ++ [c]).length (by simp) fun j hj hp => ?_
  · rwa [List.drop_left] at hdrop
  rw [List.append_assoc, List.length_append, List.length_singleton] at *
  rw [List.drop_append_of_le_length (by omega), ← List.append_assoc] at hp
  rcases List.prefix_or_prefix_of_prefix hp (List.prefix_append (w.drop j ++ [c]) s) with h | h
  · rcases List.prefix_concat_iff.mp h with h | h
    · exact hc (h ▸ by simp)
    · exact hw (h.isInfix.trans (List.drop_suffix j w).isInfix)
  · exact hc (h.subset (by simp))

theorem chars (hne : needle ≠ []) : ∀ {x : Bytes}, (∀ c ∈ x, c ∉ needle) → PassesOver needle x
  | [], _ => nil
  | c :: x, h => by
      rw [List.forall_mem_cons] at h
      have hnil : ¬ needle <:+: [] := fun hp => hne (List.infix_nil.mp hp)
      exact (word hnil h.1).append (chars hne h.2)

theorem flatMap {α : Type} {f : α → Bytes} : ∀ {l : List α}, (∀ a ∈ l, PassesOver needle (f a)) →
    PassesOver needle (l.flatMap f)
  | [], _ => nil
  | a :: l, h => by
      rw [List.forall_mem_cons] at h
      exact h.1.append (flatMap h.2)

end PassesOver

section

variable {name : QueueArgName} {digits : Bytes} {l before after : List QueueArg}

theorem isDigitOf_ten_cases : ∀ n < 256, isDigitOf 10 (UInt8.ofNat n)
    = (ascii "0123456789").contains (UInt8.ofNat n) := by
  decide +kernel

theorem isDigitOf_ten (c : UInt8) : isDigitOf 10 c = (ascii "0123456789").contains c := by
  have := isDigitOf_ten_cases c.toNat c.toNat_lt
  rwa [UInt8.ofNat_toNat] at this

theorem digit_not_mem {c : UInt8} (h : isDigitOf 10 c = true) : c ∉ name.text := by
  intro hmem
  have hletter := QueueArgName.letter_of_mem hmem
  rw [isDigitOf_ten, List.contains_iff_mem] at h
  have hall : ∀ c ∈ ascii "0123456789", ¬ (95 : UInt8) ≤ c := by decide +kernel
  exact hall c h hletter

theorem passesOver_text {a : QueueArg} (hname : a.1 ≠ name) (hnumber : IsNumber 10 a.2) :
    PassesOver name.text a.text :=
  .append (.word (QueueArgName.not_infix hname) fun h =>
    absurd (QueueArgName.letter_of_mem h) (by decide))
    (.chars QueueArgName.text_ne_nil fun c hc => digit_not_mem (hnumber.digits c hc))

theorem passesOver_separator : PassesOver name.text (ascii ", ") := by
  refine .chars QueueArgName.text_ne_nil fun c hc h => ?_
  have hletter := QueueArgName.letter_of_mem h
  have hall : ∀ c ∈ ascii ", ", ¬ (95 : UInt8) ≤ c := by decide +kernel
  exact hall c hc hletter

theorem passesOver_moreArgs (hname : ∀ a ∈ l, a.1 ≠ name) (hnumber : ∀ a ∈ l, IsNumber 10 a.2) :
    PassesOver name.text (moreArgs l) :=
  .flatMap fun a ha => passesOver_separator.append (passesOver_text (hname a ha) (hnumber a ha))

theorem find_absent (hname : ∀ a ∈ l, a.1 ≠ name) (hnumber : ∀ a ∈ l, IsNumber 10 a.2) :
    find name.text (queueArgs l) = none := by
  have hpass : PassesOver name.text (queueArgs l) := by
    cases l with
    | nil => exact .nil
    | cons a l =>
        rw [List.forall_mem_cons] at hname hnumber
        exact (passesOver_text hname.1 hnumber.1).append (passesOver_moreArgs hname.2 hnumber.2)
  have hfind := hpass []
  rw [List.append_nil] at hfind
  rw [hfind, find]
  simp [QueueArgName.text_ne_nil]

/-- The text up to the entry with the name, and behind it. -/
theorem queueArgs_split (digits : Bytes) (after : List (QueueArgName × Bytes))
    (hname : ∀ a ∈ before, a.1 ≠ name) (hnumber : ∀ a ∈ before, IsNumber 10 a.2) :
    ∃ x, queueArgs (before ++ (name, digits) :: after)
        = x ++ name.text ++ 61 :: (digits ++ moreArgs after) ∧
      PassesOver name.text x := by
  cases before with
  | nil => exact ⟨[], by simp [queueArgs, QueueArg.text], .nil⟩
  | cons a before =>
      rw [List.forall_mem_cons] at hname hnumber
      refine ⟨a.text ++ (moreArgs before ++ ascii ", "), by simp [queueArgs, moreArgs, QueueArg.text],
        (passesOver_text hname.1 hnumber.1).append
          ((passesOver_moreArgs hname.2 hnumber.2).append passesOver_separator)⟩

/-! ## What is read there -/

theorem moreArgs_head : ∀ c ∈ (moreArgs l).head?, isDigitOf 10 c = false := by
  cases l with
  | nil => simp [moreArgs]
  | cons a l =>
      have hhead : (moreArgs (a :: l)).head? = some 44 := rfl
      rw [hhead]
      intro c hc
      cases hc
      decide

/-- The digits of a text that begins with some. -/
theorem findFirstNotOf_digits {rest : Bytes} (hdigits : ∀ c ∈ digits, isDigitOf 10 c = true)
    (hrest : ∀ c ∈ rest.head?, isDigitOf 10 c = false) :
    findFirstNotOf (ascii "0123456789") (digits ++ rest)
      = if rest = [] then none else some digits.length := by
  have hnone : List.findIdx? (fun c => !(ascii "0123456789").contains c) digits = none := by
    rw [List.findIdx?_eq_none_iff]
    intro c hc
    rw [← isDigitOf_ten, hdigits c hc]
    rfl
  rw [findFirstNotOf, List.findIdx?_append, hnone, Option.none_or]
  cases rest with
  | nil => rfl
  | cons c rest =>
      have hc : c ∉ ascii "0123456789" := by
        intro hmem
        have hdigit : isDigitOf 10 c = true := by rwa [isDigitOf_ten, List.contains_iff_mem]
        exact absurd (hrest c rfl) (by simp [hdigit])
      simp [List.findIdx?_cons, hc]

/-- The digits behind the name that is found go to `myatoi`. -/
theorem getArg_of_find {args name x rest : Bytes} (hargs : args = x ++ name ++ 61 :: (digits ++ rest))
    (hfind : find name args = some x.length) (hnumber : IsNumber 10 digits)
    (hrest : ∀ c ∈ rest.head?, isDigitOf 10 c = false) :
    getArg args name = uint32 <$> myatoi digits 10 := by
  have hlength : args.length = x.length + name.length + 1 + (digits ++ rest).length := by
    simp only [hargs, List.length_append, List.length_cons]
    omega
  have hdrop : args.drop (x.length + name.length) = 61 :: (digits ++ rest) := by
    rw [hargs, ← List.length_append, List.drop_left]
  have hequals : substr args (x.length + name.length) 1 = .ok (ascii "=") := by
    rw [substr_of_le (by omega), hdrop]
    rfl
  have hbehind : substrFrom args (x.length + name.length + 1) = .ok (digits ++ rest) := by
    rw [substrFrom, if_neg (by omega), ← List.drop_drop, hdrop]
    rfl
  have hdigits := findFirstNotOf_digits hnumber.digits hrest
  have hget : getArg args name = (do
      let value ← myatoi digits 10
      return uint32 value) := by
    simp only [getArg, hfind, hequals, hbehind, ok_bind, hdigits]
    cases rest with
    | nil => simp [substrFrom, hnumber.nonempty]
    | cons c rest => simp [substr, hnumber.nonempty]
  rw [hget]
  cases myatoi digits 10 <;> rfl

/-- An entry that is found gives what `myatoi` makes of its digits. -/
theorem getArg_of_mem (hnumber : ∀ a ∈ l, IsNumber 10 a.2) (hdistinct : (l.map Prod.fst).Nodup)
    (hmem : (name, digits) ∈ l) :
    getArg (queueArgs l) name.text = uint32 <$> myatoi digits 10 := by
  obtain ⟨before, after, rfl⟩ := List.append_of_mem hmem
  have hbefore : ∀ a ∈ before, a.1 ≠ name := by
    intro a ha heq
    rw [List.map_append, List.map_cons, List.nodup_append] at hdistinct
    exact hdistinct.2.2 a.1 (List.mem_map_of_mem ha) name List.mem_cons_self heq
  obtain ⟨x, hargs, hpass⟩ := queueArgs_split digits after hbefore
    fun a ha => hnumber a (List.mem_append_left _ ha)
  refine getArg_of_find hargs ?_ (hnumber _ hmem) moreArgs_head
  have hne : name.text ≠ [] := QueueArgName.text_ne_nil
  obtain ⟨c, t, htext⟩ := List.exists_cons_of_ne_nil hne
  rw [hargs, List.append_assoc, hpass, htext, List.cons_append, find, if_pos (by simp)]
  simp

theorem uint32_myatoi (h : IsNumber 10 digits) :
    uint32 <$> myatoi digits 10 =
      if digitsValue 10 digits < 2 ^ 63 then .ok (u32 (digitsValue 10 digits))
      else .error (.systemError "strtol") := by
  split
  · next hlt =>
      rw [myatoi_digits (by omega) h hlt]
      simp only [Except.map_ok, uint32, u32]
      congr 1
  · next hge =>
      have hempty : digits.isEmpty = false := by simpa using h.nonempty
      have hrange : decide (2 ^ 63 ≤ digitsValue 10 digits) = true := decide_eq_true (by omega)
      rw [myatoi, strtol_number (by omega) h, hrange, hempty]
      rfl

end

/-- **A queue gets what is written** for it if and only if the number fits `unsigned int`,
or not even `long`. -/
theorem get_arg_right_iff (l : List QueueArg) (name : QueueArgName)
    (hnumber : ∀ a ∈ l, IsNumber 10 a.2) (hdistinct : (l.map Prod.fst).Nodup) :
    MeansWhatIsWritten l name ↔ ∀ digits, (name, digits) ∈ l →
      digitsValue 10 digits < 2 ^ 32 ∨ 2 ^ 63 ≤ digitsValue 10 digits := by
  constructor
  · rintro ⟨hpresent, -⟩ digits hmem
    have hget := (getArg_of_mem hnumber hdistinct hmem).trans (uint32_myatoi (hnumber _ hmem))
    by_contra hbetween
    rw [if_pos (by omega)] at hget
    rcases hpresent digits hmem with hok | ⟨-, e, herror⟩
    · have heq := Except.ok.inj (hget.symm.trans hok)
      have hlt : u32 (digitsValue 10 digits) < 2 ^ 32 := Nat.mod_lt _ (by decide)
      omega
    · cases hget.symm.trans herror
  · intro hfits
    refine ⟨fun digits hmem => ?_, fun habsent => ?_⟩
    · have hget := (getArg_of_mem hnumber hdistinct hmem).trans (uint32_myatoi (hnumber _ hmem))
      rcases hfits digits hmem with hlt | hge
      · rw [if_pos (by omega), u32_of_lt hlt] at hget
        exact .inl hget
      · rw [if_neg (by omega)] at hget
        exact .inr ⟨by omega, _, hget⟩
    · rw [getArg, find_absent habsent hnumber]

/-- Two limits, in the order of the example in the documentation. -/
theorem get_arg_right_iff_packets :
    MeansWhatIsWritten [(.packets, ascii "100"), (.bytes, ascii "3000")] .bytes :=
  (get_arg_right_iff [(.packets, ascii "100"), (.bytes, ascii "3000")] .bytes
    (by
      simp only [List.forall_mem_cons]
      exact ⟨⟨by decide, by decide +kernel⟩, ⟨by decide, by decide +kernel⟩, by simp⟩)
    (by decide)).mpr fun digits hmem => .inl (by
      have hdigits : digits = ascii "3000" := by simpa using hmem
      rw [hdigits]
      decide)

/-- A limit of 2^32 packets is no limit. -/
theorem large_number_truncated :
    getArg (queueArgs [(.packets, ascii "4294967296")]) (ascii "packets") = .ok 0 ∧
      ¬ MeansWhatIsWritten [(.packets, ascii "4294967296")] .packets := by
  have hzero : getArg (queueArgs [(.packets, ascii "4294967296")]) (ascii "packets") = .ok 0 := by
    decide +kernel
  refine ⟨hzero, fun h => ?_⟩
  rcases h.1 _ List.mem_cons_self with hok | ⟨-, e, herror⟩
  · have hvalue : digitsValue 10 (ascii "4294967296") = 2 ^ 32 := by decide +kernel
    have heq := Except.ok.inj (hzero.symm.trans hok)
    rw [hvalue] at heq
    cases heq
  · cases hzero.symm.trans herror

end Mahimahi
