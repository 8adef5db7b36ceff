import Mahimahi.Machine
import Mahimahi.ShellWords

/-!
# The command line in the log

`mm-link` has its own command line in the log, every argument in single quotes
(`shell_quote`). A quote inside an argument ends the quoting, stands behind a backslash,
and begins the quoting again. The shell reads such a line as the arguments that it was
made of, whatever bytes they have (`command_line_parses_back`): an argument is spelled by
its quoted form (`spells_shellQuote`), in as many quoted pieces as it has quotes.
-/

namespace Mahimahi

/-! ## mm-link -/

/-- `shell_quote`. -/
def shellQuote (arg : Bytes) : Bytes :=
  let ret := arg.foldl (fun ret ch => if ch ≠ 39 then ret ++ [ch] else ret ++ ascii "'\\''")
    (ascii "'")
  ret ++ ascii "'"

/-- `command_line` in `main`, from `argv[ 0 ]` and the arguments behind it. -/
def commandLine (argv0 : Bytes) (args : List Bytes) : Bytes :=
  args.foldl (fun commandLine arg => commandLine ++ (ascii " " ++ shellQuote arg)) (shellQuote argv0)

/-! ## Bytes and the POSIX shell -/

/-- What a byte means to the POSIX shell: its blanks, its two ways of quoting that are used
here, the newline, and all that has to be quoted besides, under some circumstances or always. -/
def shellChar (c : UInt8) : ShellChar :=
  if c = 32 ∨ c = 9 then .blank
  else if c = 10 then .newline
  else if c = 39 then .quote
  else if c = 92 then .backslash
  else if c ∈ ascii "\"$`|&;<>()*?[#~=%!" ∨ c = 123 ∨ c = 125 then .special
  else .plain

theorem shellChar_eq_quote {c : UInt8} : shellChar c = .quote ↔ c = 39 := by
  constructor
  · intro h
    unfold shellChar at h
    split_ifs at h with _ _ hquote
    exact hquote
  · rintro rfl
    rfl

/-! ## Quoted arguments -/

open ShellWords

/-- What stands for a byte between the quotes. -/
def quotedByte (ch : UInt8) : Bytes := if ch ≠ 39 then [ch] else ascii "'\\''"

theorem shellQuote_eq (arg : Bytes) : shellQuote arg = 39 :: (arg.flatMap quotedByte ++ [39]) := by
  have hloop : ∀ (arg ret : Bytes), arg.foldl
      (fun ret ch => if ch ≠ 39 then ret ++ [ch] else ret ++ ascii "'\\''") ret
        = ret ++ arg.flatMap quotedByte := by
    intro arg
    induction arg with
    | nil => simp
    | cons ch arg ih =>
        intro ret
        rw [List.foldl_cons, ih, List.flatMap_cons, ← List.append_assoc, quotedByte]
        split <;> rfl
  rw [shellQuote, hloop]
  rfl

/-- A quoted piece without a quote, that has begun already, and then the rest of an argument:
at each quote the piece ends and the next one begins. -/
theorem spells_pieces : ∀ (rest piece : Bytes), 39 ∉ piece →
    Spells shellChar (39 :: (piece ++ rest.flatMap quotedByte ++ [39])) (piece ++ rest)
  | [], piece, hpiece => by
      have hchars : ∀ c ∈ piece, shellChar c ≠ .quote := by
        intro c hc hquote
        rw [shellChar_eq_quote] at hquote
        exact hpiece (hquote ▸ hc)
      have hspells : Spells shellChar (39 :: (piece ++ [39])) piece := .quoted rfl rfl hchars
      simpa using hspells
  | ch :: rest, piece, hpiece => by
      by_cases hch : ch = 39
      · subst hch
        have hfirst := spells_pieces [] piece hpiece
        have hquote : Spells shellChar [92, 39] [39] := .escaped rfl (by decide)
        have hrest := spells_pieces rest [] (by simp)
        have htext : 39 :: (piece ++ (39 :: rest).flatMap quotedByte ++ [39])
            = 39 :: (piece ++ [].flatMap quotedByte ++ [39])
              ++ ([92, 39] ++ 39 :: ([] ++ rest.flatMap quotedByte ++ [39])) := by
          simp [quotedByte, ascii]
        have hword : piece ++ 39 :: rest = piece ++ [] ++ ([39] ++ ([] ++ rest)) := by simp
        rw [htext, hword]
        exact hfirst.append (hquote.append hrest)
      · have hrest := spells_pieces rest (piece ++ [ch]) (by simp [hpiece, Ne.symm hch])
        simpa [quotedByte, hch] using hrest

/-- **A quoted argument spells the argument.** -/
theorem spells_shellQuote (arg : Bytes) : Spells shellChar (shellQuote arg) arg := by
  rw [shellQuote_eq]
  exact spells_pieces arg [] (by simp)

/-! ## The line -/

theorem commandLine_eq (argv0 : Bytes) (args : List Bytes) :
    commandLine argv0 args = shellQuote argv0 ++ (args.map shellQuote).flatMap (32 :: ·) := by
  have hloop : ∀ (args : List Bytes) (line : Bytes), args.foldl
      (fun commandLine arg => commandLine ++ (ascii " " ++ shellQuote arg)) line
        = line ++ (args.map shellQuote).flatMap (32 :: ·) := by
    intro args
    induction args with
    | nil => simp
    | cons arg args ih =>
        intro line
        rw [List.foldl_cons, ih, List.map_cons, List.flatMap_cons, List.append_assoc]
        rfl
  exact hloop args _

theorem shellWords_commandLine (argv0 : Bytes) (args : List Bytes) :
    shellWords shellChar (commandLine argv0 args) = some (argv0 :: args) := by
  have hspells : List.Forall₂ (Spells shellChar) (args.map shellQuote) args := by
    rw [List.forall₂_map_left_iff]
    exact List.forall₂_same.mpr fun arg _ => spells_shellQuote arg
  rw [commandLine_eq]
  exact shellWords_line rfl (spells_shellQuote argv0) hspells

/-- **The command line parses back.** The shell takes the line apart into the arguments that
it was made of, so two vectors of arguments never give the same line. -/
theorem command_line_parses_back :
    (∀ (argv0 : Bytes) (args : List Bytes),
      shellWords shellChar (commandLine argv0 args) = some (argv0 :: args)) ∧
    Function.Injective fun argv : Bytes × List Bytes => commandLine argv.1 argv.2 := by
  refine ⟨shellWords_commandLine, ?_⟩
  rintro ⟨argv0, args⟩ ⟨argv0', args'⟩ h
  have hwords := shellWords_commandLine argv0 args
  rw [show commandLine argv0 args = commandLine argv0' args' from h, shellWords_commandLine] at hwords
  obtain ⟨rfl, rfl⟩ := List.cons.inj (Option.some.inj hwords)
  rfl

/-- Words of other makings, and a continued line. -/
example : shellWords shellChar (ascii "mm-link\t'up link'  do\\wn'li nk' \\\n ''")
    = some [ascii "mm-link", ascii "up link", ascii "downli nk", []] := by
  decide

end Mahimahi
