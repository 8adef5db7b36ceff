import Mahimahi.ByteString

/-!
# Lines and fields of a text

A text file is read with `getline`, and a line with `operator>>`, which
passes over white space and takes what follows up to the next.

`Fields line fs` says what the fields of a line are by how the line is put
together; `columns` finds them. The two agree (`fields_iff`), so a format
can be stated over the text and still be decided.
-/

namespace Mahimahi

/-! ## Lines -/

/-- What successive calls of `getline` give: behind the last line ending there
is another line only if there are bytes. -/
def lines (text : Bytes) : List Bytes :=
  let parts := text.splitOn 10
  if parts.getLast? = some [] then parts.dropLast else parts

theorem lines_nil : lines [] = [] := by decide

theorem lines_cons {line rest : Bytes} (h : 10 ∉ line) :
    lines (line ++ 10 :: rest) = line :: lines rest := by
  obtain ⟨part, parts, hparts⟩ := List.exists_cons_of_ne_nil (List.splitOn_ne_nil 10 rest)
  simp only [lines, List.splitOn_append_cons_self_of_not_mem h, hparts, List.getLast?_cons_cons,
    List.dropLast_cons_cons]
  split <;> rfl

/-! ## Numbers -/

/-- An unsigned number, as `<<` writes it. -/
def decimal (n : Nat) : Bytes := ascii (toString n)

/-! ## Fields -/

/-- The fields of a line: each a run of characters other than white space,
with white space between them and perhaps around them. -/
inductive Fields : Bytes → List Bytes → Prop
  | blank {s} : (∀ c ∈ s, isSpace c = true) → Fields s []
  | field {s f rest fs} : (∀ c ∈ s, isSpace c = true) → f ≠ [] → (∀ c ∈ f, isSpace c = false) →
      (∀ c ∈ rest.head?, isSpace c = true) → Fields rest fs → Fields (s ++ f ++ rest) (f :: fs)

/-- What `istream_iterator<string>` gives. -/
def columns (line : Bytes) : List Bytes := (line.splitOnP isSpace).filter fun f => !f.isEmpty

theorem columns_nil : columns [] = [] := by decide

theorem columns_cons_space {c : UInt8} (h : isSpace c = true) (line : Bytes) :
    columns (c :: line) = columns line := by
  simp [columns, List.splitOnP_cons_eq_if_modifyHead, h]

theorem columns_append_blank : ∀ {s : Bytes}, (∀ c ∈ s, isSpace c = true) → ∀ line : Bytes,
    columns (s ++ line) = columns line
  | [], _, _ => rfl
  | c :: s, h, line => by
      rw [List.cons_append, columns_cons_space (h c (List.mem_cons_self ..))]
      exact columns_append_blank (fun d hd => h d (List.mem_cons_of_mem _ hd)) line

theorem columns_field {f : Bytes} (hne : f ≠ []) (hf : ∀ c ∈ f, isSpace c = false) {rest : Bytes}
    (hrest : ∀ c ∈ rest.head?, isSpace c = true) : columns (f ++ rest) = f :: columns rest := by
  cases rest with
  | nil => simp [columns, List.splitOnP_eq_singleton hf, hne]
  | cons c rest =>
      have hc : isSpace c = true := hrest c rfl
      rw [columns_cons_space hc, columns, List.splitOnP_append_cons_of_forall_mem hf c hc]
      simp [columns, hne]

theorem columns_of_fields {line : Bytes} {fs : List Bytes} (h : Fields line fs) :
    columns line = fs := by
  induction h with
  | blank hs => simpa [columns_nil] using columns_append_blank hs []
  | field hs hne hf hrest _ ih =>
      rw [List.append_assoc, columns_append_blank hs, columns_field hne hf hrest, ih]

theorem Fields.cons_space {c : UInt8} {line : Bytes} {fs : List Bytes} (hc : isSpace c = true)
    (h : Fields line fs) : Fields (c :: line) fs := by
  cases h with
  | blank hs => exact .blank (by simpa [hc] using hs)
  | field hs hne hf hrest hfs =>
      exact .field (s := c :: _) (by simpa [hc] using hs) hne hf hrest hfs

/-- A character that is no space makes the first field longer, or a new one. -/
theorem Fields.cons_char {c d : UInt8} {line : Bytes} {fs : List Bytes} (hc : isSpace c = false)
    (hd : isSpace d = false) (h : Fields (d :: line) fs) :
    ∃ f fs', fs = f :: fs' ∧ Fields (c :: d :: line) ((c :: f) :: fs') := by
  generalize hline : d :: line = text at h
  cases h with
  | blank hs =>
      subst hline
      rw [hs d (List.mem_cons_self ..)] at hd
      cases hd
  | @field s f rest fs hs hne hf hrest hfs =>
      cases s with
      | cons e s =>
          obtain ⟨rfl, -⟩ := List.cons.inj hline
          rw [hs d (List.mem_cons_self ..)] at hd
          cases hd
      | nil =>
          refine ⟨f, fs, rfl, ?_⟩
          exact .field (s := []) (f := c :: f) (by simp) (by simp) (by simpa [hc] using hf) hrest hfs

theorem fields_columns : ∀ line : Bytes, Fields line (columns line)
  | [] => .blank (by simp)
  | c :: line => by
      have ih := fields_columns line
      by_cases hc : isSpace c = true
      · rw [columns_cons_space hc]
        exact ih.cons_space hc
      · have hc' : isSpace c = false := by simpa using hc
        cases line with
        | nil =>
            have : columns [c] = [c] :: columns [] :=
              columns_field (f := [c]) (by simp) (by simpa using hc') (by simp)
            rw [this]
            exact .field (s := []) (f := [c]) (by simp) (by simp) (by simpa using hc') (by simp) ih
        | cons d line =>
            by_cases hd : isSpace d = true
            · have : columns ([c] ++ d :: line) = [c] :: columns (d :: line) :=
                columns_field (by simp) (by simpa using hc') (by simpa using hd)
              rw [List.singleton_append] at this
              rw [this]
              exact .field (s := []) (f := [c]) (by simp) (by simp) (by simpa using hc')
                (by simpa using hd) ih
            · obtain ⟨f, fs, hfs, h⟩ := ih.cons_char hc' (by simpa using hd)
              rw [columns_of_fields h]
              exact h

/-- A line has the fields that `columns` finds in it, and no others. -/
theorem fields_iff {line : Bytes} {fs : List Bytes} : Fields line fs ↔ columns line = fs := by
  refine ⟨columns_of_fields, ?_⟩
  rintro rfl
  exact fields_columns line

instance (line : Bytes) (fs : List Bytes) : Decidable (Fields line fs) :=
  decidable_of_iff _ fields_iff.symm

example : Fields (ascii " 6\t10.0.0.1  ") [ascii "6", ascii "10.0.0.1"] := by decide +kernel

end Mahimahi
