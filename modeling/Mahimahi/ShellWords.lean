import Mathlib.Data.List.Forall2

/-!
# Words of the shell

How the POSIX shell takes a line apart, as far as the line is made of words: blanks
separate them, a backslash takes away the meaning of the next character, and between two
single quotes no character has a meaning. Other characters that mean something to the
shell (double quotes, expansions, operators, patterns) are not accepted outside quotes.

The reader goes over the characters with the words so far, the word at hand and the state
of quoting (`Reader.step`). What spells a word is stated without it (`Spells`); the reader
takes a text that spells a word for this word, whatever comes before it (`Spells.read`),
and a line of such texts for the list of words (`shellWords_line`).
-/

namespace Mahimahi

/-- What a character means to the shell. -/
inductive ShellChar where
  | plain
  | blank
  | quote
  | backslash
  | newline
  /-- It means something else, outside quotes. -/
  | special
  deriving DecidableEq

namespace ShellWords

/-- Between single quotes, behind a backslash, or neither. -/
inductive Mode where
  | unquoted
  | quoted
  | escaped
  deriving DecidableEq

/-- The words so far, the word at hand if there is one, and how it is read on. -/
structure Reader (α : Type*) where
  words : List (List α)
  word : Option (List α)
  mode : Mode

variable {α : Type*}

namespace Reader

def start : Reader α := ⟨[], none, .unquoted⟩

/-- More of the word at hand; a word begins if there is none. -/
def add (r : Reader α) (s : List α) : Reader α := { r with word := some (r.word.getD [] ++ s) }

/-- The word at hand is complete. -/
def endWord (r : Reader α) : Reader α := { r with words := r.words ++ r.word.toList, word := none }

/-- One character. A newline ends the command, so it is not accepted between the words;
behind a backslash it is taken off with it. -/
def step (kind : α → ShellChar) (r : Reader α) (c : α) : Option (Reader α) :=
  match r.mode, kind c with
  | .unquoted, .plain => some (r.add [c])
  | .unquoted, .blank => some r.endWord
  | .unquoted, .quote => some { r.add [] with mode := .quoted }
  | .unquoted, .backslash => some { r with mode := .escaped }
  | .unquoted, .newline => none
  | .unquoted, .special => none
  | .quoted, .quote => some { r with mode := .unquoted }
  | .quoted, _ => some (r.add [c])
  | .escaped, .newline => some { r with mode := .unquoted }
  | .escaped, _ => some { r.add [c] with mode := .unquoted }

def read (kind : α → ShellChar) (text : List α) (r : Reader α) : Option (Reader α) :=
  text.foldlM (step kind) r

end Reader

/-- The words of a line. A quote or a backslash that is left open is not accepted. -/
def shellWords (kind : α → ShellChar) (line : List α) : Option (List (List α)) :=
  match Reader.start.read kind line with
  | none => none
  | some r => if r.mode = .unquoted then some r.endWord.words else none

/-- The text spells the word, or a part of it. -/
inductive Spells (kind : α → ShellChar) : List α → List α → Prop where
  | plain {c : α} : kind c = .plain → Spells kind [c] [c]
  | escaped {b c : α} : kind b = .backslash → kind c ≠ .newline → Spells kind [b, c] [c]
  | quoted {q q' : α} {s : List α} : kind q = .quote → kind q' = .quote →
      (∀ c ∈ s, kind c ≠ .quote) → Spells kind (q :: (s ++ [q'])) s
  | append {text text' word word' : List α} : Spells kind text word → Spells kind text' word' →
      Spells kind (text ++ text') (word ++ word')

/-! ## One word -/

section

variable {kind : α → ShellChar} {r : Reader α}

namespace Reader

@[simp] theorem add_add (r : Reader α) (s t : List α) : (r.add s).add t = r.add (s ++ t) := by
  simp [add]

theorem read_cons (c : α) (text : List α) (r : Reader α) :
    r.read kind (c :: text) = (r.step kind c).bind (read kind text) := rfl

theorem read_append (text text' : List α) (r : Reader α) :
    r.read kind (text ++ text') = (r.read kind text).bind (read kind text') :=
  List.foldlM_append

/-- Between the quotes every character is taken as it is. -/
theorem read_quoted : ∀ {s : List α} {r : Reader α}, (∀ c ∈ s, kind c ≠ .quote) →
    r.mode = .quoted → r.word ≠ none → r.read kind s = some (r.add s)
  | [], r, _, _, hword => by
      obtain ⟨w, hw⟩ := Option.ne_none_iff_exists'.mp hword
      cases r
      simp_all [read, add]
  | c :: s, r, hs, hmode, _ => by
      rw [List.forall_mem_cons] at hs
      have hstep : r.step kind c = some (r.add [c]) := by
        unfold step
        rw [hmode]
        split <;> simp_all
      have hmode' : (r.add [c]).mode = .quoted := hmode
      rw [read_cons, hstep, Option.bind_some, read_quoted hs.2 hmode' (by simp [add]), add_add]
      rfl

end Reader

/-- **A text that spells a word** is read as this word. -/
theorem Spells.read {text word : List α} (h : Spells kind text word) :
    ∀ {r : Reader α}, r.mode = .unquoted → r.read kind text = some (r.add word) := by
  induction h with
  | plain hc =>
      intro r hmode
      simp [Reader.read, Reader.step, hmode, hc]
  | @escaped b c hb hc =>
      intro r hmode
      have hstep : Reader.step kind { r with mode := .escaped } c = some (r.add [c]) := by
        unfold Reader.step
        split <;> simp_all [Reader.add]
      rw [Reader.read_cons, Reader.step, hmode, hb]
      simp only [Option.bind_some, Reader.read_cons, hstep]
      rfl
  | @quoted q q' s hq hq' hs =>
      intro r hmode
      have hopen : r.step kind q = some { r.add [] with mode := .quoted } := by
        simp [Reader.step, hmode, hq]
      rw [Reader.read_cons, hopen, Option.bind_some, Reader.read_append,
        Reader.read_quoted hs rfl (by simp [Reader.add]), Option.bind_some]
      simp [Reader.read, Reader.step, hq', Reader.add, ← hmode]
  | @append _ _ word _ _ _ ih ih' =>
      intro r hmode
      have hmode' : (r.add word).mode = .unquoted := hmode
      rw [Reader.read_append, ih hmode, Option.bind_some, ih' hmode', Reader.add_add]

/-! ## A line -/

theorem read_words {b : α} (hb : kind b = .blank) {texts words : List (List α)}
    (h : List.Forall₂ (Spells kind) texts words) :
    ∀ {r : Reader α}, r.mode = .unquoted → ∃ r', r.read kind (texts.flatMap (b :: ·)) = some r' ∧
      r'.mode = .unquoted ∧ r'.endWord.words = r.endWord.words ++ words := by
  induction h with
  | nil =>
      intro r hmode
      exact ⟨r, rfl, hmode, (List.append_nil _).symm⟩
  | @cons text word texts words hspells _ ih =>
      intro r hmode
      have hblank : r.step kind b = some r.endWord := by
        simp [Reader.step, hmode, hb]
      have hread : r.endWord.read kind text = some (r.endWord.add word) := hspells.read hmode
      obtain ⟨r', hr', hmode', hwords⟩ := ih (r := r.endWord.add word) hmode
      refine ⟨r', ?_, hmode', ?_⟩
      · rw [List.flatMap_cons, List.cons_append, Reader.read_cons, hblank, Option.bind_some,
          Reader.read_append, hread, Option.bind_some, hr']
      · rw [hwords]
        simp [Reader.endWord, Reader.add]

/-- **A line of words**, with a blank between any two, is read as these words. -/
theorem shellWords_line {b : α} (hb : kind b = .blank) {text word : List α}
    {texts words : List (List α)} (h : Spells kind text word)
    (hs : List.Forall₂ (Spells kind) texts words) :
    shellWords kind (text ++ texts.flatMap (b :: ·)) = some (word :: words) := by
  obtain ⟨r, hr, hmode, hwords⟩ := read_words hb hs (r := Reader.start.add word) rfl
  rw [shellWords, Reader.read_append, h.read rfl, Option.bind_some, hr]
  simp only [hmode, if_true, hwords]
  simp [Reader.endWord, Reader.add, Reader.start]

end

end ShellWords

end Mahimahi
