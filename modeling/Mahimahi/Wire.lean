import Mathlib.Data.List.Nodup
import Mahimahi.Loop
import Mahimahi.Machine

/-!
# Messages as rows of tagged fields

The binary form of a message is a row of fields, each with its tag in front: a
number in a code that says itself where it ends (`Varint`), of which the low three
bits tell how to pass over the field. A reader takes the fields in any order, lets
a later one override or extend an earlier one, and keeps those that it does not
know (`UnknownFields`).

A generated reader is a loop over the tags with short cuts: behind a field it looks
whether one of the tags that should follow is there, and jumps to the code for it.
Whether the look succeeds also depends on where the buffer of the stream ends, so
it is an argument (`Lookahead`), of which only the documented half is known: a look
that succeeds is right.

- `parsePartial_lookahead`: the short cuts change nothing, on any bytes.
- `Takes T bytes m m'`: a reader at these bytes, whatever follows them, gets from `m`
  to `m'`. It composes along the row, and `Takes.parse` turns it into what the whole
  loop returns.

What the run-time library does is a parameter throughout (`Runtime`), with what is
documented of its functions as laws.
-/

namespace Mahimahi

namespace Wire

/-! ## The run-time library -/

/-- A code of 32-bit numbers that says itself where it ends. -/
structure Varint where
  write : Nat → Bytes
  read : Bytes → Option (Nat × Bytes)
  size : Nat → Nat
  read_write : ∀ {n : Nat}, n < 2 ^ 32 → ∀ rest, read (write n ++ rest) = some (n, rest)
  length_write : ∀ {n : Nat}, n < 2 ^ 32 → (write n).length = size n
  write_small : ∀ {n : Nat}, n < 128 → write n = [n.toUInt8]
  read_shorter : ∀ {bytes rest : Bytes} {n : Nat}, read bytes = some (n, rest) →
    rest.length < bytes.length

/-- The fields that a message does not know, by their tags and what follows them. -/
structure UnknownFields (V : Varint) where
  Field : Type
  tag : Field → Nat
  payload : Field → Bytes
  /-- `SkipField`: the field with this tag, and what follows it. -/
  skip : Nat → Bytes → Option (Field × Bytes)
  /-- `AddVarint`: a number under a field number. -/
  addVarint : Nat → Nat → Field
  tag_pos : ∀ f, 0 < tag f
  tag_lt : ∀ f, tag f < 2 ^ 32
  /-- No field begins with the end of a group. -/
  tag_opens : ∀ f, tag f % 8 ≠ 4
  skip_payload : ∀ f rest, skip (tag f) (payload f ++ rest) = some (f, rest)
  skip_shorter : ∀ {t : Nat} {bytes rest : Bytes} {f : Field}, skip t bytes = some (f, rest) →
    rest.length ≤ bytes.length
  tag_addVarint : ∀ {number n : Nat}, 0 < number → number < 2 ^ 29 → n < 2 ^ 32 →
    tag (addVarint number n) = 8 * number
  read_addVarint : ∀ {number n : Nat}, 0 < number → number < 2 ^ 29 → n < 2 ^ 32 → ∀ rest,
    V.read (payload (addVarint number n) ++ rest) = some (n, rest)

/-- The functions of the library that the generated code calls, and its callers. -/
structure Runtime where
  varint : Varint
  unknown : UnknownFields varint
  /-- `ReadTag`: 0 stands for the end, and for what is no tag. -/
  readTag : Bytes → Nat × Bytes
  /-- `ReadBytes` and `ReadString`: a length and as many bytes. -/
  readBytes : Bytes → Option (Bytes × Bytes)
  /-- `ReadMessageNoVirtual`: a length and a message that takes up as many bytes. -/
  readMessage : {N : Type} → (Bytes → N → Option (N × Bool)) → Bytes → N → Option (N × Bytes)
  /-- `ParseFromFileDescriptor`, by a message that has been cleared and the contents of the
  file. -/
  parseFromFileDescriptor : {M : Type} → (Bytes → M → Option (M × Bool)) → M → Bytes → Option M
  /-- `WriteBytes` and `WriteString`, by the number of the field. -/
  writeBytes : Nat → Bytes → Bytes
  /-- `WriteUInt32` and `WriteEnum`. -/
  writeVarint : Nat → Nat → Bytes
  /-- `WriteMessage`, by the size that has been computed before. -/
  writeMessage : Nat → Nat → Bytes → Bytes
  /-- `SerializeUnknownFields`. -/
  writeUnknown : List unknown.Field → Bytes
  /-- `BytesSize`, `StringSize` and `MessageSize`, by the length of what is written. -/
  sizeDelimited : Nat → Nat
  /-- `ComputeUnknownFieldsSize`. -/
  sizeUnknown : List unknown.Field → Nat
  /-- A stream that is as long as this need not be read to its end. -/
  totalBytesLimit : Nat
  readTag_nil : readTag [] = (0, [])
  readTag_write : ∀ {t : Nat}, t < 2 ^ 32 → ∀ rest, readTag (varint.write t ++ rest) = (t, rest)
  readTag_shorter : ∀ {bytes rest : Bytes} {t : Nat}, readTag bytes = (t, rest) → 0 < t →
    rest.length < bytes.length
  readBytes_write : ∀ {value : Bytes}, value.length < 2 ^ 32 → ∀ rest,
    readBytes (varint.write value.length ++ value ++ rest) = some (value, rest)
  readBytes_shorter : ∀ {bytes contents rest : Bytes}, readBytes bytes = some (contents, rest) →
    rest.length ≤ bytes.length
  readMessage_write : ∀ {N : Type} {parse : Bytes → N → Option (N × Bool)} {contents : Bytes}
    {value value' : N}, contents.length < 2 ^ 32 → parse contents value = some (value', true) →
    ∀ rest, readMessage parse (varint.write contents.length ++ contents ++ rest) value
      = some (value', rest)
  readMessage_shorter : ∀ {N : Type} {parse : Bytes → N → Option (N × Bool)} {bytes rest : Bytes}
    {value value' : N}, readMessage parse bytes value = some (value', rest) →
    rest.length ≤ bytes.length
  parse_file : ∀ {M : Type} {parse : Bytes → M → Option (M × Bool)} {m m' : M} {file : Bytes},
    file.length < totalBytesLimit → parse file m = some (m', true) →
    parseFromFileDescriptor parse m file = some m'
  writeBytes_eq : ∀ number value, writeBytes number value
    = varint.write (8 * number + 2) ++ (varint.write value.length ++ value)
  writeVarint_eq : ∀ number value, writeVarint number value
    = varint.write (8 * number) ++ varint.write value
  writeMessage_eq : ∀ number size contents, writeMessage number size contents
    = varint.write (8 * number + 2) ++ (varint.write size ++ contents)
  writeUnknown_eq : ∀ fields, writeUnknown fields
    = fields.flatMap fun f => varint.write (unknown.tag f) ++ unknown.payload f
  sizeDelimited_eq : ∀ n, sizeDelimited n = varint.size n + n
  sizeUnknown_eq : ∀ fields, sizeUnknown fields
    = (fields.map fun f => varint.size (unknown.tag f) + (unknown.payload f).length).sum

/-- What `ExpectTag` and `ExpectAtEnd` find, by what is left of the stream. They may
overlook what is there. -/
structure Lookahead where
  expectTag : Nat → Bytes → Bool
  expectAtEnd : Bytes → Bool
  tag_sound : ∀ {t : Nat} {bytes : Bytes}, expectTag t bytes = true → bytes.head? = some t.toUInt8
  end_sound : ∀ {bytes : Bytes}, expectAtEnd bytes = true → bytes = []

/-- Overlooking everything. -/
def Lookahead.never : Lookahead where
  expectTag _ _ := false
  expectAtEnd _ := false
  tag_sound h := by cases h
  end_sound h := by cases h

/-! ## Readers -/

/-- A tag of one byte. -/
abbrev Tag := { t : Nat // 0 < t ∧ t < 128 }

/-- The code for one field: how it is read into a message, the tags that it then
expects, and whether it expects the end. -/
structure FieldReader (M : Type) where
  tag : Tag
  read : Bytes → M → Option (M × Bytes)
  expected : List Tag
  last : Bool
  shorter : ∀ {bytes rest : Bytes} {m m' : M}, read bytes m = some (m', rest) →
    rest.length ≤ bytes.length

/-- The reader of a type of messages. -/
structure MessageType (R : Runtime) (M : Type) where
  fields : List (FieldReader M)
  addUnknown : R.unknown.Field → M → M
  nodup : (fields.map FieldReader.tag).Nodup
  expected_mem : ∀ f ∈ fields, ∀ t ∈ f.expected, ∃ g ∈ fields, g.tag = t

/-- A reader at work: the message so far, what is left of the stream, and the tag that
has been expected and found. -/
structure Parsing (M : Type) where
  message : M
  left : Bytes
  expected : Option Tag

variable {R : Runtime} {M N : Type} {T : MessageType R M}

/-- The tag of the next field, and what follows it. -/
def Parsing.next (R : Runtime) (s : Parsing M) : Nat × Bytes :=
  match s.expected with
  | some t => (t, s.left)
  | none => R.readTag s.left

/-- Behind a field: `if ( input->ExpectTag( t ) ) goto parse_t`, for each tag. -/
def follow (look : Lookahead) (expected : List Tag) (message : M) (left : Bytes) : Parsing M :=
  match expected.find? (fun t : Tag => look.expectTag t.1 left) with
  | some t => ⟨message, left.tail, some t⟩
  | none => ⟨message, left, none⟩

/-- One turn of `MergePartialFromCodedStream`. The loop is left with the message, and
with whether the end of the stream has been found where a field could have begun. -/
def turn (T : MessageType R M) (look : Lookahead) (s : Parsing M) :
    Except Unit (Parsing M ⊕ (M × Bool)) :=
  let (tag, left) := s.next R
  match T.fields.find? fun f => decide (f.tag.1 = tag) with
  | some f =>
      match f.read left s.message with
      | none => .error ()
      | some (m, left) =>
          if f.last && look.expectAtEnd left then .ok (.inr (m, true))
          else .ok (.inl (follow look f.expected m left))
  | none =>
      -- `handle_unusual`
      if tag = 0 ∨ tag % 8 = 4 then .ok (.inr (s.message, s.left.isEmpty))
      else
        match R.unknown.skip tag left with
        | none => .error ()
        | some (field, left) => .ok (.inl ⟨T.addUnknown field s.message, left, none⟩)

/-- `MergePartialFromCodedStream`; `none` is its `false`. -/
def parsePartial (T : MessageType R M) (look : Lookahead) (bytes : Bytes) (m : M) :
    Option (M × Bool) :=
  (loop () (turn T look) (2 * bytes.length + 1) ⟨m, bytes, none⟩).toOption

/-! ## Fields -/

/-- A field of bytes. -/
def bytesField (R : Runtime) (tag : Tag) (set : Bytes → M → M) (expected : List Tag)
    (last : Bool) : FieldReader M where
  tag := tag
  read bytes m := (R.readBytes bytes).map fun r => (set r.1 m, r.2)
  expected := expected
  last := last
  shorter h := by
    obtain ⟨⟨contents, left⟩, hread, hr⟩ := Option.map_eq_some_iff.mp h
    cases hr
    exact R.readBytes_shorter hread

/-- A field that holds a number. -/
def varintField (V : Varint) (tag : Tag) (set : Nat → M → M) (expected : List Tag) (last : Bool) :
    FieldReader M where
  tag := tag
  read bytes m := (V.read bytes).map fun r => (set r.1 m, r.2)
  expected := expected
  last := last
  shorter h := by
    obtain ⟨⟨n, left⟩, hread, hr⟩ := Option.map_eq_some_iff.mp h
    cases hr
    exact Nat.le_of_lt (V.read_shorter hread)

/-- A field that holds a message: read into `get m`, and put back. Where in the stream this
happens is up to `parse`, which gets what is left. -/
def messageField (R : Runtime) (tag : Tag) (parse : Bytes → Bytes → N → Option (N × Bool))
    (get : M → N) (set : N → M → M) (expected : List Tag) (last : Bool) : FieldReader M where
  tag := tag
  read bytes m := (R.readMessage (parse bytes) bytes (get m)).map fun r => (set r.1 m, r.2)
  expected := expected
  last := last
  shorter h := by
    obtain ⟨⟨value, left⟩, hread, hr⟩ := Option.map_eq_some_iff.mp h
    cases hr
    exact R.readMessage_shorter hread

/-! ## The loop comes to an end -/

/-- A tag of one byte at the front of the stream. -/
theorem readTag_cons (R : Runtime) (t : Tag) (left : Bytes) :
    R.readTag (t.1.toUInt8 :: left) = (t.1, left) := by
  have h := R.readTag_write (t := t.1) (by have := t.2.2; omega) left
  rwa [R.varint.write_small t.2.2] at h

/-- How much there is left to do: the bytes, and the tag that has been taken already. -/
def Parsing.remaining (s : Parsing M) : Nat := 2 * s.left.length + if s.expected.isSome then 1 else 0

theorem find?_tag {fields : List (FieldReader M)} {t : Nat} {f : FieldReader M}
    (h : fields.find? (fun f => decide (f.tag.1 = t)) = some f) : f ∈ fields ∧ f.tag.1 = t := by
  have htag := List.find?_some h
  exact ⟨List.mem_of_find?_eq_some h, of_decide_eq_true htag⟩

/-- Reading the next tag brings the loop forward, unless there is none. -/
theorem next_shorter {s : Parsing M} {tag : Nat} {left : Bytes}
    (h : s.next R = (tag, left)) (htag : 0 < tag) : 2 * left.length < s.remaining := by
  unfold Parsing.next at h
  unfold Parsing.remaining
  split at h
  · next t hexp =>
      cases h
      simp [hexp]
  · next hexp =>
      have := R.readTag_shorter h htag
      omega

theorem follow_remaining (look : Lookahead) (expected : List Tag) (m : M) (left : Bytes) :
    (follow look expected m left).remaining ≤ 2 * left.length := by
  unfold follow
  split
  · next t hfind =>
      have hfound := List.find?_some hfind
      have hhead := look.tag_sound hfound
      cases left with
      | nil => cases hhead
      | cons b left =>
          simp only [Parsing.remaining, List.tail_cons, List.length_cons, Option.isSome_some, if_true]
          omega
  · simp [Parsing.remaining]

theorem turn_again {look : Lookahead} {s s' : Parsing M} (h : turn T look s = .ok (.inl s')) :
    ∃ tag left, s.next R = (tag, left) ∧ 0 < tag ∧
      ((∃ f ∈ T.fields, f.tag.1 = tag ∧ ∃ m rest, f.read left s.message = some (m, rest) ∧
          (f.last && look.expectAtEnd rest) = false ∧ s' = follow look f.expected m rest) ∨
        ∃ field rest, R.unknown.skip tag left = some (field, rest) ∧
          s' = ⟨T.addUnknown field s.message, rest, none⟩) := by
  unfold turn at h
  cases hnext : s.next R with
  | mk tag left =>
      rw [hnext] at h
      simp only at h
      refine ⟨tag, left, rfl, ?_⟩
      split at h
      · next f hfind =>
          obtain ⟨hmem, htag⟩ := find?_tag hfind
          refine ⟨htag ▸ f.tag.2.1, .inl ⟨f, hmem, htag, ?_⟩⟩
          split at h
          · cases h
          · next m rest hread =>
              split at h
              · cases h
              · next hend =>
                  cases h
                  exact ⟨m, rest, hread, by simpa using hend, rfl⟩
      · split at h
        · cases h
        · next hopen =>
            rw [not_or] at hopen
            refine ⟨Nat.pos_of_ne_zero hopen.1, .inr ?_⟩
            split at h
            · cases h
            · next field rest hskip =>
                cases h
                exact ⟨field, rest, hskip, rfl⟩

theorem turn_remaining {look : Lookahead} {s s' : Parsing M} (h : turn T look s = .ok (.inl s')) :
    s'.remaining < s.remaining := by
  obtain ⟨tag, left, hnext, hpos, hcases⟩ := turn_again h
  have hlt := next_shorter hnext hpos
  rcases hcases with ⟨f, -, -, m, rest, hread, -, rfl⟩ | ⟨field, rest, hskip, rfl⟩
  · have hle := f.shorter hread
    have := follow_remaining look f.expected m rest
    omega
  · have := R.unknown.skip_shorter hskip
    show 2 * rest.length + 0 < s.remaining
    omega

/-- The loop as it stands has enough turns. -/
theorem exits_parse (T : MessageType R M) (look : Lookahead) (bytes : Bytes) (m : M) :
    Exits (turn T look) ⟨m, bytes, none⟩
      (loop () (turn T look) (2 * bytes.length + 1) ⟨m, bytes, none⟩) := by
  refine exits_loop (I := fun _ => True) (μ := Parsing.remaining)
    (fun s s' _ h => ⟨trivial, turn_remaining h⟩) trivial ?_
  simp [Parsing.remaining]

/-! ## The short cuts change nothing -/

/-- The stream with the tag that has been taken put back. -/
def Parsing.putBack (s : Parsing M) : Parsing M :=
  match s.expected with
  | some t => ⟨s.message, t.1.toUInt8 :: s.left, none⟩
  | none => s

theorem putBack_message (s : Parsing M) : s.putBack.message = s.message := by
  unfold Parsing.putBack
  split <;> rfl

theorem next_putBack (R : Runtime) (s : Parsing M) : s.putBack.next R = s.next R := by
  cases hexp : s.expected with
  | none => rw [Parsing.putBack, hexp]
  | some t =>
      rw [Parsing.putBack, hexp]
      simp only [Parsing.next, hexp]
      exact readTag_cons R t s.left

theorem putBack_follow (look : Lookahead) (expected : List Tag) (m : M) (left : Bytes) :
    (follow look expected m left).putBack = ⟨m, left, none⟩ := by
  unfold follow
  split
  · next t hfind =>
      have hfound := List.find?_some hfind
      have hhead := look.tag_sound hfound
      cases left with
      | nil => cases hhead
      | cons b left =>
          obtain rfl := Option.some.inj hhead
          rfl
  · rfl

theorem follow_never (expected : List Tag) (m : M) (left : Bytes) :
    follow .never expected m left = ⟨m, left, none⟩ := by
  have hnone : expected.find? (fun t : Tag => Lookahead.never.expectTag t.1 left) = none :=
    List.find?_eq_none.mpr fun t _ => by simp [Lookahead.never]
  rw [follow, hnone]

/-- The tag that has been taken is one that there is code for. -/
def Parsing.Known (T : MessageType R M) (s : Parsing M) : Prop :=
  ∀ t, s.expected = some t → ∃ f ∈ T.fields, f.tag = t

theorem known_follow {f : FieldReader M} (hf : f ∈ T.fields) (look : Lookahead) (m : M)
    (left : Bytes) : (follow look f.expected m left).Known T := by
  intro t ht
  unfold follow at ht
  split at ht
  · next t' hfind =>
      obtain rfl := Option.some.inj ht
      exact T.expected_mem f hf t' (List.mem_of_find?_eq_some hfind)
  · cases ht

/-- How a turn with short cuts compares with one without. -/
theorem turn_putBack {look : Lookahead} {s : Parsing M} (hs : s.Known T) :
    (turn T look s = .error () ∧ turn T .never s.putBack = .error ()) ∨
    (∃ s', turn T look s = .ok (.inl s') ∧ turn T .never s.putBack = .ok (.inl s'.putBack) ∧
      s'.Known T) ∨
    ∃ r, turn T look s = .ok (.inr r) ∧ (turn T .never s.putBack = .ok (.inr r) ∨
      turn T .never s.putBack = .ok (.inl ⟨r.1, [], none⟩) ∧ r.2 = true) := by
  unfold turn
  rw [next_putBack, putBack_message]
  cases hnext : s.next R with
  | mk tag left =>
      simp only
      cases hfind : T.fields.find? (fun f => decide (f.tag.1 = tag)) with
      | some f =>
          simp only
          cases hread : f.read left s.message with
          | none => exact .inl ⟨rfl, rfl⟩
          | some r =>
              obtain ⟨m, rest⟩ := r
              simp only
              have hnever : (f.last && Lookahead.never.expectAtEnd rest) = false := Bool.and_false _
              rw [hnever, follow_never]
              simp only [Bool.false_eq_true, if_false]
              split
              · next hend =>
                  rw [Bool.and_eq_true] at hend
                  have hrest := look.end_sound hend.2
                  exact .inr (.inr ⟨(m, true), rfl, .inr ⟨by rw [hrest], rfl⟩⟩)
              · refine .inr (.inl ⟨_, rfl, ?_, known_follow (find?_tag hfind).1 look m rest⟩)
                rw [putBack_follow]
      | none =>
          simp only
          -- a tag that has been taken would have been found
          have hexp : s.expected = none := by
            cases hexp : s.expected with
            | none => rfl
            | some t =>
                obtain ⟨f, hf, rfl⟩ := hs t hexp
                simp only [Parsing.next, hexp] at hnext
                cases hnext
                exact absurd (decide_eq_true rfl) (List.find?_eq_none.mp hfind f hf)
          have hput : s.putBack = s := by rw [Parsing.putBack, hexp]
          rw [hput]
          split
          · exact .inr (.inr ⟨_, rfl, .inl rfl⟩)
          · cases R.unknown.skip tag left with
            | none => exact .inl ⟨rfl, rfl⟩
            | some r => exact .inr (.inl ⟨_, rfl, rfl, fun t ht => (by cases ht)⟩)

theorem turn_end (T : MessageType R M) (look : Lookahead) (m : M) :
    turn T look ⟨m, [], none⟩ = .ok (.inr (m, true)) := by
  have hnext : (⟨m, [], none⟩ : Parsing M).next R = (0, []) := R.readTag_nil
  have hfind : T.fields.find? (fun f => decide (f.tag.1 = 0)) = none :=
    List.find?_eq_none.mpr fun f _ => by simpa using Nat.pos_iff_ne_zero.mp f.tag.2.1
  unfold turn
  rw [hnext]
  simp only [hfind]
  rfl

theorem exits_never {look : Lookahead} {s : Parsing M} {o : Except Unit (M × Bool)}
    (h : Exits (turn T look) s o) : s.Known T → Exits (turn T .never) s.putBack o := by
  induction h with
  | @error s e hb =>
      intro hs
      rcases turn_putBack hs with ⟨-, hnever⟩ | ⟨s', hlook, -⟩ | ⟨r, hlook, -⟩
      · exact .error hnever
      · rw [hb] at hlook
        cases hlook
      · rw [hb] at hlook
        cases hlook
  | @leave s r hb =>
      intro hs
      rcases turn_putBack hs with ⟨hlook, -⟩ | ⟨s', hlook, -⟩ | ⟨r', hlook, hnever | ⟨hnever, hend⟩⟩
      · rw [hb] at hlook
        cases hlook
      · rw [hb] at hlook
        cases hlook
      · rw [hb] at hlook
        cases hlook
        exact .leave hnever
      · rw [hb] at hlook
        cases hlook
        -- the end has been seen without another turn
        refine .again hnever (.leave ?_)
        rw [turn_end, ← hend]
  | @again s s' o hb _ ih =>
      intro hs
      rcases turn_putBack hs with ⟨hlook, -⟩ | ⟨s'', hlook, hnever, hknown⟩ | ⟨r, hlook, -⟩
      · rw [hb] at hlook
        cases hlook
      · rw [hb] at hlook
        cases hlook
        exact .again hnever (ih hknown)
      · rw [hb] at hlook
        cases hlook

/-- **The short cuts change nothing**: on any bytes, a reader that looks ahead returns
what the plain loop over the tags returns. -/
theorem parsePartial_lookahead (T : MessageType R M) (look : Lookahead) (bytes : Bytes) (m : M) :
    parsePartial T look bytes m = parsePartial T .never bytes m := by
  have hlook := exits_never (exits_parse T look bytes m) fun t ht => (by cases ht)
  rw [parsePartial, parsePartial, hlook.unique (exits_parse T .never bytes m)]

/-! ## What has been written is read back -/

/-- At these bytes, whatever follows them, the reader gets from `m` to `m'`. -/
def Takes (T : MessageType R M) (bytes : Bytes) (m m' : M) : Prop :=
  ∀ rest, Visits (turn T .never) ⟨m, bytes ++ rest, none⟩ ⟨m', rest, none⟩

theorem Takes.nil (T : MessageType R M) (m : M) : Takes T [] m m := fun _ => .refl _

theorem Takes.append {bytes bytes' : Bytes} {m m' m'' : M} (h : Takes T bytes m m')
    (h' : Takes T bytes' m' m'') : Takes T (bytes ++ bytes') m m'' := by
  intro rest
  rw [List.append_assoc]
  exact (h _).trans (h' rest)

theorem next_tag (R : Runtime) {t : Nat} (ht : t < 2 ^ 32) (m : M) (rest : Bytes) :
    (⟨m, R.varint.write t ++ rest, none⟩ : Parsing M).next R = (t, rest) :=
  R.readTag_write ht rest

theorem Takes.field {f : FieldReader M} (hf : f ∈ T.fields) {payload : Bytes} {m m' : M}
    (hread : ∀ rest, f.read (payload ++ rest) m = some (m', rest)) :
    Takes T (R.varint.write f.tag.1 ++ payload) m m' := by
  intro rest
  have hlt := f.tag.2.2
  have hfind : T.fields.find? (fun g => decide (g.tag.1 = f.tag.1)) = some f := by
    have hsome : (T.fields.find? (fun g => decide (g.tag.1 = f.tag.1))).isSome = true :=
      List.find?_isSome.mpr ⟨f, hf, decide_eq_true rfl⟩
    obtain ⟨g, hg⟩ := Option.isSome_iff_exists.mp hsome
    obtain ⟨hmem, htag⟩ := find?_tag hg
    rw [hg, List.inj_on_of_nodup_map T.nodup hmem hf (Subtype.ext htag)]
  have hturn : turn T .never ⟨m, R.varint.write f.tag.1 ++ payload ++ rest, none⟩
      = .ok (.inl ⟨m', rest, none⟩) := by
    unfold turn
    rw [List.append_assoc, next_tag R (by omega)]
    simp only [hfind, hread]
    rw [if_neg (by simp [Lookahead.never]), follow_never]
  exact .again hturn (.refl _)

/-- A field that the message does not know is kept. -/
theorem Takes.unknown {field : R.unknown.Field}
    (hnot : ∀ f ∈ T.fields, f.tag.1 ≠ R.unknown.tag field) (m : M) :
    Takes T (R.varint.write (R.unknown.tag field) ++ R.unknown.payload field) m
      (T.addUnknown field m) := by
  intro rest
  have hpos := R.unknown.tag_pos field
  have hfind : T.fields.find? (fun g => decide (g.tag.1 = R.unknown.tag field)) = none :=
    List.find?_eq_none.mpr fun f hf => by simpa using hnot f hf
  have hturn : turn T .never
      ⟨m, R.varint.write (R.unknown.tag field) ++ R.unknown.payload field ++ rest, none⟩
      = .ok (.inl ⟨T.addUnknown field m, rest, none⟩) := by
    unfold turn
    rw [List.append_assoc, next_tag R (R.unknown.tag_lt field)]
    simp only [hfind, R.unknown.skip_payload]
    rw [if_neg (not_or.mpr ⟨by omega, R.unknown.tag_opens field⟩)]
  exact .again hturn (.refl _)

/-- Fields behind each other, each of which adds something to a list in the message. -/
theorem Takes.flatMap {α : Type} {write : α → Bytes} (set : List α → M) {l : List α} :
    (∀ a ∈ l, ∀ l₀, Takes T (write a) (set l₀) (set (l₀ ++ [a]))) →
    ∀ l₀, Takes T (l.flatMap write) (set l₀) (set (l₀ ++ l)) := by
  induction l with
  | nil =>
      intro _ l₀
      rw [List.append_nil]
      exact .nil T _
  | cons a l ih =>
      intro h l₀
      rw [List.flatMap_cons, List.append_cons]
      exact (h a List.mem_cons_self l₀).append (ih (fun b hb => h b (List.mem_cons_of_mem _ hb)) _)

/-- A field that is written only where it is set. -/
theorem Takes.option {α : Type} {o : Option α} {write : α → Bytes} (set : Option α → M)
    (h : ∀ a, o = some a → ∀ o₀, Takes T (write a) (set o₀) (set (some a))) (o₀ : Option α) :
    Takes T (o.elim [] write) (set o₀) (set (o.or o₀)) := by
  cases o with
  | none => exact .nil T _
  | some a => exact h a rfl o₀

/-- The loop goes on behind the bytes from the message that they come to. -/
theorem Takes.parse_append {bytes : Bytes} {m m' : M} (h : Takes T bytes m m') (look : Lookahead)
    (rest : Bytes) : parsePartial T look (bytes ++ rest) m = parsePartial T look rest m' := by
  have hexits := (h rest).exits (exits_parse T .never rest m')
  rw [parsePartial_lookahead, parsePartial_lookahead T look rest, parsePartial, parsePartial,
    (exits_parse T .never (bytes ++ rest) m).unique hexits]

theorem parsePartial_nil (T : MessageType R M) (look : Lookahead) (m : M) :
    parsePartial T look [] m = some (m, true) := by
  have hexits : Exits (turn T look) ⟨m, [], none⟩ (.ok (m, true)) := .leave (turn_end T look m)
  rw [parsePartial, (exits_parse T look [] m).unique hexits]
  rfl

theorem Takes.parse {bytes : Bytes} {m m' : M} (h : Takes T bytes m m') (look : Lookahead) :
    parsePartial T look bytes m = some (m', true) := by
  rw [← List.append_nil bytes, h.parse_append, parsePartial_nil]

/-! ## What is written for a field -/

theorem length_writeTag (V : Varint) {t : Nat} (h : t < 128) : (V.write t).length = 1 := by
  rw [V.write_small h]
  rfl

theorem length_writeBytes (R : Runtime) {number : Nat} {value : Bytes} (hn : 8 * number + 2 < 128)
    (h : value.length < 2 ^ 32) :
    (R.writeBytes number value).length = 1 + R.sizeDelimited value.length := by
  rw [R.writeBytes_eq, List.length_append, List.length_append, length_writeTag R.varint hn,
    R.varint.length_write h, R.sizeDelimited_eq]

theorem length_writeVarint (R : Runtime) {number value : Nat} (hn : 8 * number < 128)
    (h : value < 2 ^ 32) : (R.writeVarint number value).length = 1 + R.varint.size value := by
  rw [R.writeVarint_eq, List.length_append, length_writeTag R.varint hn, R.varint.length_write h]

theorem length_writeMessage (R : Runtime) {number : Nat} {contents : Bytes}
    (hn : 8 * number + 2 < 128) (h : contents.length < 2 ^ 32) :
    (R.writeMessage number contents.length contents).length = 1 + R.sizeDelimited contents.length := by
  rw [R.writeMessage_eq, List.length_append, List.length_append, length_writeTag R.varint hn,
    R.varint.length_write h, R.sizeDelimited_eq]

theorem length_writeUnknown (R : Runtime) (fields : List R.unknown.Field) :
    (R.writeUnknown fields).length = R.sizeUnknown fields := by
  rw [R.writeUnknown_eq, List.length_flatMap, R.sizeUnknown_eq]
  congr 1
  refine List.map_congr_left fun f _ => ?_
  rw [List.length_append, R.varint.length_write (R.unknown.tag_lt f)]

theorem Takes.bytesField {tag : Tag} {set : Bytes → M → M} {expected : List Tag} {last : Bool}
    {number : Nat} (hmem : bytesField R tag set expected last ∈ T.fields)
    (htag : tag.1 = 8 * number + 2) {value : Bytes} (h : value.length < 2 ^ 32) (m : M) :
    Takes T (R.writeBytes number value) m (set value m) := by
  rw [R.writeBytes_eq, ← htag]
  refine Takes.field hmem fun rest => ?_
  show (R.readBytes _).map _ = _
  rw [R.readBytes_write h]
  rfl

theorem Takes.varintField {tag : Tag} {set : Nat → M → M} {expected : List Tag} {last : Bool}
    {number : Nat} (hmem : varintField R.varint tag set expected last ∈ T.fields)
    (htag : tag.1 = 8 * number) {value : Nat} (h : value < 2 ^ 32) (m : M) :
    Takes T (R.writeVarint number value) m (set value m) := by
  rw [R.writeVarint_eq, ← htag]
  refine Takes.field hmem fun rest => ?_
  show (R.varint.read _).map _ = _
  rw [R.varint.read_write h]
  rfl

/-- A message in a field is read when its size is right and it is read itself. -/
theorem Takes.messageField {tag : Tag} {parse : Bytes → Bytes → N → Option (N × Bool)} {get : M → N}
    {set : N → M → M} {expected : List Tag} {last : Bool} {number : Nat}
    (hmem : messageField R tag parse get set expected last ∈ T.fields)
    (htag : tag.1 = 8 * number + 2) {contents : Bytes} (h : contents.length < 2 ^ 32) {m : M}
    {value : N} (hparse : ∀ bytes, parse bytes contents (get m) = some (value, true)) :
    Takes T (R.writeMessage number contents.length contents) m (set value m) := by
  rw [R.writeMessage_eq, ← htag]
  refine Takes.field hmem fun rest => ?_
  show (R.readMessage _ _ _).map _ = _
  rw [R.readMessage_write h (hparse _)]
  rfl

/-! ## Numbers in base 128

The code of the library, low groups of seven bits first, each but the last with the
high bit set. -/

def writeGroups : Nat → Nat → Bytes
  | 0, _ => []
  | k + 1, n =>
      if n < 128 then [n.toUInt8] else (n % 128 + 128).toUInt8 :: writeGroups k (n / 128)

def readGroups : Nat → Bytes → Option (Nat × Bytes)
  | 0, _ => none
  | _ + 1, [] => none
  | k + 1, b :: rest =>
      if b.toNat < 128 then some (b.toNat, rest)
      else (readGroups k rest).map fun r => (b.toNat - 128 + 128 * r.1, r.2)

theorem toNat_toUInt8 {n : Nat} (h : n < 256) : n.toUInt8.toNat = n := by
  rw [Nat.toUInt8_eq, UInt8.toNat_ofNat']
  exact Nat.mod_eq_of_lt h

theorem readGroups_write (rest : Bytes) : ∀ {k j n : Nat}, k < j → n < 128 ^ (k + 1) →
    readGroups j (writeGroups (k + 1) n ++ rest) = some (n, rest)
  | k, 0, n, hkj, _ => absurd hkj (Nat.not_lt_zero k)
  | k, j + 1, n, hkj, hn => by
      rw [writeGroups]
      split
      · next hlt =>
          simp only [List.singleton_append, readGroups, toNat_toUInt8 (by omega : n < 256), hlt, if_true]
      · next hge =>
          have hmod : n % 128 + 128 < 256 := by omega
          have hdiv : n / 128 < 128 ^ k := by
            rw [Nat.div_lt_iff_lt_mul (by decide)]
            rwa [Nat.pow_succ] at hn
          cases k with
          | zero =>
              rw [Nat.pow_zero] at hdiv
              omega
          | succ k =>
              rw [List.cons_append, readGroups, toNat_toUInt8 hmod, if_neg (by omega),
                readGroups_write rest (Nat.lt_of_succ_lt_succ hkj) hdiv]
              simp only [Option.map_some]
              congr 2
              omega

theorem readGroups_shorter : ∀ {k : Nat} {bytes rest : Bytes} {n : Nat},
    readGroups k bytes = some (n, rest) → rest.length < bytes.length
  | 0, _, _, _, h => by cases h
  | _ + 1, [], _, _, h => by cases h
  | k + 1, b :: bytes, rest, n, h => by
      rw [readGroups] at h
      split at h
      · cases h
        exact Nat.lt_succ_self _
      · obtain ⟨r, hr, heq⟩ := Option.map_eq_some_iff.mp h
        cases heq
        exact Nat.lt_succ_of_lt (readGroups_shorter hr)

def base128 : Varint where
  write n := writeGroups 5 n
  read bytes := (readGroups 10 bytes).map fun r => (r.1 % 2 ^ 32, r.2)
  size n := (writeGroups 5 n).length
  read_write := by
    intro n hn rest
    have hlt : n < 128 ^ 5 := by
      have : (2 : Nat) ^ 32 < 128 ^ 5 := by decide
      omega
    rw [readGroups_write rest (by decide) hlt]
    simp only [Option.map_some, Nat.mod_eq_of_lt hn]
  length_write _ := rfl
  write_small h := by rw [writeGroups, if_pos h]
  read_shorter h := by
    obtain ⟨r, hr, heq⟩ := Option.map_eq_some_iff.mp h
    cases heq
    exact readGroups_shorter hr

/-- A length and as many bytes. -/
def readDelimited (bytes : Bytes) : Option (Bytes × Bytes) :=
  match base128.read bytes with
  | none => none
  | some (n, rest) => if n ≤ rest.length then some (rest.take n, rest.drop n) else none

theorem readDelimited_write {value : Bytes} (h : value.length < 2 ^ 32) (rest : Bytes) :
    readDelimited (base128.write value.length ++ value ++ rest) = some (value, rest) := by
  rw [readDelimited, List.append_assoc, base128.read_write h]
  simp

theorem readDelimited_shorter {bytes contents rest : Bytes}
    (h : readDelimited bytes = some (contents, rest)) : rest.length ≤ bytes.length := by
  unfold readDelimited at h
  split at h
  · cases h
  · next n left hread =>
      have := base128.read_shorter hread
      split at h
      · cases h
        rw [List.length_drop]
        omega
      · cases h

/-- A field of a number, or of bytes. -/
inductive PlainField where
  | varint (number : { k : Nat // 0 < k ∧ k < 2 ^ 29 }) (value : { n : Nat // n < 2 ^ 32 })
  | lengthDelimited (number : { k : Nat // 0 < k ∧ k < 2 ^ 29 })
      (value : { b : Bytes // b.length < 2 ^ 32 })
  deriving DecidableEq

namespace PlainField

def tag : PlainField → Nat
  | varint number _ => 8 * number.1
  | lengthDelimited number _ => 8 * number.1 + 2

def payload : PlainField → Bytes
  | varint _ value => base128.write value.1
  | lengthDelimited _ value => base128.write value.1.length ++ value.1

def skip (t : Nat) (bytes : Bytes) : Option (PlainField × Bytes) :=
  if h : 0 < t / 8 ∧ t / 8 < 2 ^ 29 then
    if t % 8 = 0 then
      match base128.read bytes with
      | some (n, rest) => if hn : n < 2 ^ 32 then some (varint ⟨t / 8, h⟩ ⟨n, hn⟩, rest) else none
      | none => none
    else if t % 8 = 2 then
      match readDelimited bytes with
      | some (b, rest) =>
          if hb : b.length < 2 ^ 32 then some (lengthDelimited ⟨t / 8, h⟩ ⟨b, hb⟩, rest) else none
      | none => none
    else none
  else none

/-- A value that fits; the fields are only made of values that do. -/
def addVarint (number n : Nat) : PlainField :=
  if h : (0 < number ∧ number < 2 ^ 29) ∧ n < 2 ^ 32 then varint ⟨number, h.1⟩ ⟨n, h.2⟩
  else varint ⟨1, by decide⟩ ⟨0, by decide⟩

theorem addVarint_eq {number n : Nat} (hpos : 0 < number) (hlt : number < 2 ^ 29)
    (hn : n < 2 ^ 32) : addVarint number n = varint ⟨number, hpos, hlt⟩ ⟨n, hn⟩ :=
  dif_pos ⟨⟨hpos, hlt⟩, hn⟩

theorem skip_payload (f : PlainField) (rest : Bytes) :
    skip f.tag (f.payload ++ rest) = some (f, rest) := by
  cases f with
  | varint number value =>
      have hdiv : 8 * number.1 / 8 = number.1 := by omega
      have hmod : 8 * number.1 % 8 = 0 := by omega
      unfold skip
      simp only [tag, payload, hdiv, hmod, base128.read_write value.2]
      rw [dif_pos number.2, if_pos trivial, dif_pos value.2]
  | lengthDelimited number value =>
      have hdiv : (8 * number.1 + 2) / 8 = number.1 := by omega
      have hmod : (8 * number.1 + 2) % 8 = 2 := by omega
      unfold skip
      simp only [tag, payload, hdiv, hmod, readDelimited_write value.2 rest]
      rw [dif_pos number.2, if_neg (by decide), if_pos trivial, dif_pos value.2]

theorem skip_shorter {t : Nat} {bytes rest : Bytes} {f : PlainField}
    (h : skip t bytes = some (f, rest)) : rest.length ≤ bytes.length := by
  unfold skip at h
  split at h
  · split at h
    · split at h
      · next n left hread =>
          split at h
          · cases h
            exact Nat.le_of_lt (base128.read_shorter hread)
          · cases h
      · cases h
    · split at h
      · split at h
        · next b left hread =>
            split at h
            · cases h
              exact readDelimited_shorter hread
            · cases h
        · cases h
      · cases h
  · cases h

end PlainField

def plainFields : UnknownFields base128 where
  Field := PlainField
  tag := PlainField.tag
  payload := PlainField.payload
  skip := PlainField.skip
  addVarint := PlainField.addVarint
  tag_pos f := by
    rcases f with ⟨⟨k, hpos, hlt⟩, -⟩ | ⟨⟨k, hpos, hlt⟩, -⟩ <;> simp only [PlainField.tag] <;> omega
  tag_lt f := by
    rcases f with ⟨⟨k, hpos, hlt⟩, -⟩ | ⟨⟨k, hpos, hlt⟩, -⟩ <;> simp only [PlainField.tag] <;> omega
  tag_opens f := by
    rcases f with ⟨⟨k, hpos, hlt⟩, -⟩ | ⟨⟨k, hpos, hlt⟩, -⟩ <;> simp only [PlainField.tag] <;> omega
  skip_payload := PlainField.skip_payload
  skip_shorter := PlainField.skip_shorter
  tag_addVarint hpos hlt hn := by
    rw [PlainField.addVarint_eq hpos hlt hn]
    rfl
  read_addVarint hpos hlt hn rest := by
    rw [PlainField.addVarint_eq hpos hlt hn]
    exact base128.read_write hn rest

/-- What a whole message is, of a reader that says if it has come to the end. -/
def whole : Option (M × Bool) → Option M
  | some (m, true) => some m
  | _ => none

/-- The library with its default limit of 64 MiB. -/
def plain : Runtime where
  varint := base128
  unknown := plainFields
  readTag bytes := (base128.read bytes).getD (0, bytes)
  readBytes := readDelimited
  readMessage parse bytes value := (readDelimited bytes).bind fun r =>
    (whole (parse r.1 value)).map fun value => (value, r.2)
  parseFromFileDescriptor parse m file :=
    if file.length < 64 * 1024 * 1024 then whole (parse file m) else none
  writeBytes number value := base128.write (8 * number + 2) ++ (base128.write value.length ++ value)
  writeVarint number value := base128.write (8 * number) ++ base128.write value
  writeMessage number size contents :=
    base128.write (8 * number + 2) ++ (base128.write size ++ contents)
  writeUnknown fields := fields.flatMap fun f => base128.write f.tag ++ f.payload
  sizeDelimited n := base128.size n + n
  sizeUnknown fields := (fields.map fun f => base128.size f.tag + f.payload.length).sum
  totalBytesLimit := 64 * 1024 * 1024
  readTag_nil := rfl
  readTag_write h rest := by rw [base128.read_write h, Option.getD_some]
  readTag_shorter {bytes rest t} h htag := by
    cases hread : base128.read bytes with
    | none =>
        rw [hread] at h
        cases h
        exact absurd htag (Nat.lt_irrefl 0)
    | some r =>
        rw [hread] at h
        cases h
        exact base128.read_shorter hread
  readBytes_write := readDelimited_write
  readBytes_shorter := readDelimited_shorter
  readMessage_write h hparse rest := by
    rw [readDelimited_write h, Option.bind_some, hparse]
    rfl
  readMessage_shorter h := by
    obtain ⟨r, hread, h⟩ := Option.bind_eq_some_iff.mp h
    obtain ⟨value, -, hr⟩ := Option.map_eq_some_iff.mp h
    cases hr
    exact readDelimited_shorter hread
  parse_file h hparse := by
    rw [if_pos h, hparse]
    rfl
  writeBytes_eq _ _ := rfl
  writeVarint_eq _ _ := rfl
  writeMessage_eq _ _ _ := rfl
  writeUnknown_eq _ := rfl
  sizeDelimited_eq _ := rfl
  sizeUnknown_eq _ := rfl

end Wire

end Mahimahi
