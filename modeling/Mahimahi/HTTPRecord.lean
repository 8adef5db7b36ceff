import Mahimahi.ReplayServer
import Mahimahi.Tokenize
import Mahimahi.Wire

/-!
# The files of a recording

`http_record.pb.cc` is what the protocol compiler has made of `http_record.proto`:
for each type of messages the fields with their has-bits, a reader, a writer, the
sizes that the writer relies on, and the merging of one message into another. The
readers are instances of the tag loop of `Wire`.

A writer puts the size that `ByteSize` has computed in front of an inner message. So
the files can be read back only because the sizes are right (`byteSize_eq`); then
what has been written is taken, whatever message it is read into and whatever follows
it, as `MergeFrom` does it in memory (`takes_serialize`).
-/

namespace Mahimahi

namespace MahimahiProtobufs

open Wire

/-! ## The messages -/

/-- An optional field is `none` where its has-bit is not set. -/
structure HTTPHeader (R : Runtime) where
  key : Option Bytes
  value : Option Bytes
  unknownFields : List R.unknown.Field

structure HTTPMessage (R : Runtime) where
  firstLine : Option Bytes
  header : List (HTTPHeader R)
  body : Option Bytes
  unknownFields : List R.unknown.Field

structure RequestResponse (R : Runtime) where
  ip : Option Bytes
  port : Option Nat
  scheme : Option Scheme
  request : Option (HTTPMessage R)
  response : Option (HTTPMessage R)
  unknownFields : List R.unknown.Field

variable {R : Runtime}

/-- What `Clear` leaves, and a message that has just been made. -/
def HTTPHeader.cleared : HTTPHeader R := ⟨none, none, []⟩

def HTTPMessage.cleared : HTTPMessage R := ⟨none, [], none, []⟩

def RequestResponse.cleared : RequestResponse R := ⟨none, none, none, none, none, []⟩

/-! ## Merging and copying -/

def HTTPHeader.mergeFrom (m from' : HTTPHeader R) : HTTPHeader R where
  key := from'.key.or m.key
  value := from'.value.or m.value
  unknownFields := m.unknownFields ++ from'.unknownFields

def HTTPMessage.mergeFrom (m from' : HTTPMessage R) : HTTPMessage R where
  firstLine := from'.firstLine.or m.firstLine
  header := m.header ++ from'.header
  body := from'.body.or m.body
  unknownFields := m.unknownFields ++ from'.unknownFields

/-- `mutable_request()->MergeFrom( from.request() )`, where that one is set. -/
def mergeInner (m : Option (HTTPMessage R)) : Option (HTTPMessage R) → Option (HTTPMessage R)
  | none => m
  | some inner => some ((m.getD .cleared).mergeFrom inner)

def RequestResponse.mergeFrom (m from' : RequestResponse R) : RequestResponse R where
  ip := from'.ip.or m.ip
  port := from'.port.or m.port
  scheme := from'.scheme.or m.scheme
  request := mergeInner m.request from'.request
  response := mergeInner m.response from'.response
  unknownFields := m.unknownFields ++ from'.unknownFields

/-- `CopyFrom`: `Clear` and `MergeFrom`. -/
def RequestResponse.copyFrom (_ from' : RequestResponse R) : RequestResponse R :=
  RequestResponse.cleared.mergeFrom from'

/-! ## Reading -/

/-- Where the readers look ahead: by what is left of each of the streams that they are
in, the outermost first. -/
structure Lookaheads where
  record : Lookahead
  message : Bytes → Lookahead
  header : Bytes → Bytes → Lookahead

def Lookaheads.never : Lookaheads := ⟨.never, fun _ => .never, fun _ _ => .never⟩

def HTTPHeader.type (R : Runtime) : MessageType R (HTTPHeader R) where
  fields :=
    [bytesField R ⟨10, by decide⟩ (fun b m => { m with key := some b })
      [⟨18, by decide⟩] false,
    bytesField R ⟨18, by decide⟩ (fun b m => { m with value := some b }) [] true]
  addUnknown f m := { m with unknownFields := m.unknownFields ++ [f] }
  nodup := by simp [bytesField]
  expected_mem := by
    simp [bytesField]
    grind

def HTTPMessage.type (R : Runtime) (look : Bytes → Lookahead) : MessageType R (HTTPMessage R) where
  fields :=
    [bytesField R ⟨10, by decide⟩ (fun b m => { m with firstLine := some b })
      [⟨18, by decide⟩] false,
    messageField R ⟨18, by decide⟩ (fun at' => parsePartial (HTTPHeader.type R) (look at'))
      (fun _ => .cleared) (fun h m => { m with header := m.header ++ [h] })
      [⟨18, by decide⟩, ⟨26, by decide⟩] false,
    bytesField R ⟨26, by decide⟩ (fun b m => { m with body := some b }) [] true]
  addUnknown f m := { m with unknownFields := m.unknownFields ++ [f] }
  nodup := by simp [bytesField, messageField]
  expected_mem := by
    simp [bytesField, messageField]
    grind

/-- `RequestResponse_Scheme_IsValid`, with the value that it is. -/
def schemeOf : Nat → Option Scheme
  | 1 => some .http
  | 2 => some .https
  | _ => none

def schemeValue : Scheme → Nat
  | .http => 1
  | .https => 2

/-- A value that is no scheme is kept as an unknown field. -/
def RequestResponse.setScheme (value : Nat) (m : RequestResponse R) : RequestResponse R :=
  match schemeOf value with
  | some scheme => { m with scheme := some scheme }
  | none => { m with unknownFields := m.unknownFields ++ [R.unknown.addVarint 3 value] }

def RequestResponse.type (R : Runtime) (looks : Lookaheads) :
    MessageType R (RequestResponse R) where
  fields :=
    [bytesField R ⟨10, by decide⟩ (fun b m => { m with ip := some b })
      [⟨16, by decide⟩] false,
    varintField R.varint ⟨16, by decide⟩ (fun n m => { m with port := some n })
      [⟨24, by decide⟩] false,
    varintField R.varint ⟨24, by decide⟩ RequestResponse.setScheme [⟨34, by decide⟩] false,
    messageField R ⟨34, by decide⟩
      (fun at' => parsePartial (HTTPMessage.type R (looks.header at')) (looks.message at'))
      (fun m => m.request.getD .cleared) (fun v m => { m with request := some v })
      [⟨42, by decide⟩] false,
    messageField R ⟨42, by decide⟩
      (fun at' => parsePartial (HTTPMessage.type R (looks.header at')) (looks.message at'))
      (fun m => m.response.getD .cleared) (fun v m => { m with response := some v }) [] true]
  addUnknown f m := { m with unknownFields := m.unknownFields ++ [f] }
  nodup := by simp [bytesField, varintField, messageField]
  expected_mem := by
    simp [bytesField, varintField, messageField]
    grind

/-- `ParseFromFileDescriptor`, by the contents of the file. -/
def RequestResponse.parseFromFileDescriptor (R : Runtime) (looks : Lookaheads) (file : Bytes) :
    Option (RequestResponse R) :=
  R.parseFromFileDescriptor (parsePartial (RequestResponse.type R looks) looks.record) .cleared file

/-! ## Writing -/

/-- `ByteSize`. It is computed as an `int`, of which these are the 32 bits. -/
def HTTPHeader.byteSize (m : HTTPHeader R) : Nat :=
  u32 ((m.key.elim 0 fun b => 1 + R.sizeDelimited b.length)
    + (m.value.elim 0 fun b => 1 + R.sizeDelimited b.length)
    + R.sizeUnknown m.unknownFields)

/-- `SerializeWithCachedSizes`. -/
def HTTPHeader.serialize (m : HTTPHeader R) : Bytes :=
  m.key.elim [] (R.writeBytes 1) ++ (m.value.elim [] (R.writeBytes 2)
    ++ R.writeUnknown m.unknownFields)

def HTTPMessage.byteSize (m : HTTPMessage R) : Nat :=
  u32 ((m.firstLine.elim 0 fun b => 1 + R.sizeDelimited b.length)
    + (m.body.elim 0 fun b => 1 + R.sizeDelimited b.length)
    + (1 * m.header.length + (m.header.map fun h => R.sizeDelimited h.byteSize).sum)
    + R.sizeUnknown m.unknownFields)

def HTTPMessage.serialize (m : HTTPMessage R) : Bytes :=
  m.firstLine.elim [] (R.writeBytes 1)
    ++ ((m.header.flatMap fun h => R.writeMessage 2 h.byteSize h.serialize)
      ++ (m.body.elim [] (R.writeBytes 3) ++ R.writeUnknown m.unknownFields))

def RequestResponse.byteSize (m : RequestResponse R) : Nat :=
  u32 ((m.ip.elim 0 fun b => 1 + R.sizeDelimited b.length)
    + (m.port.elim 0 fun n => 1 + R.varint.size n)
    + (m.scheme.elim 0 fun x => 1 + R.varint.size (schemeValue x))
    + (m.request.elim 0 fun x => 1 + R.sizeDelimited x.byteSize)
    + (m.response.elim 0 fun x => 1 + R.sizeDelimited x.byteSize)
    + R.sizeUnknown m.unknownFields)

def RequestResponse.serialize (m : RequestResponse R) : Bytes :=
  m.ip.elim [] (R.writeBytes 1) ++ (m.port.elim [] (R.writeVarint 2)
    ++ (m.scheme.elim [] (fun x => R.writeVarint 3 (schemeValue x))
      ++ (m.request.elim [] (fun x => R.writeMessage 4 x.byteSize x.serialize)
        ++ (m.response.elim [] (fun x => R.writeMessage 5 x.byteSize x.serialize)
          ++ R.writeUnknown m.unknownFields))))

/-! ## The sizes are right -/

theorem length_elim_writeBytes (number : Nat) (hn : 8 * number + 2 < 128) {o : Option Bytes}
    (h : (o.elim [] (R.writeBytes number)).length < 2 ^ 31) :
    (o.elim [] (R.writeBytes number)).length
      = o.elim 0 fun b => 1 + R.sizeDelimited b.length := by
  cases o with
  | none => rfl
  | some b =>
      have hb : b.length < 2 ^ 32 := by
        simp only [Option.elim_some, R.writeBytes_eq, List.length_append] at h
        omega
      exact length_writeBytes R hn hb

theorem HTTPHeader.byteSize_eq {m : HTTPHeader R} (h : m.serialize.length < 2 ^ 31) :
    m.byteSize = m.serialize.length := by
  rw [HTTPHeader.serialize, List.length_append, List.length_append] at h
  have hkey := length_elim_writeBytes (R := R) 1 (by decide) (o := m.key) (by omega)
  have hvalue := length_elim_writeBytes (R := R) 2 (by decide) (o := m.value) (by omega)
  rw [HTTPHeader.byteSize, HTTPHeader.serialize, List.length_append, List.length_append, hkey, hvalue,
    length_writeUnknown, u32_of_lt]
  · omega
  · rw [length_writeUnknown] at h
    omega

theorem length_inner (number : Nat) (hn : 8 * number + 2 < 128) {size : Nat} {contents : Bytes}
    (hsize : contents.length < 2 ^ 31 → size = contents.length)
    (h : (R.writeMessage number size contents).length < 2 ^ 31) :
    size = contents.length ∧ (R.writeMessage number size contents).length
      = 1 + R.sizeDelimited size := by
  have hcontents : contents.length < 2 ^ 31 := by
    simp only [R.writeMessage_eq, List.length_append] at h
    omega
  have heq := hsize hcontents
  refine ⟨heq, ?_⟩
  rw [heq, length_writeMessage R hn (by omega)]

theorem length_headers : ∀ (headers : List (HTTPHeader R)),
    (headers.flatMap fun h => R.writeMessage 2 h.byteSize h.serialize).length < 2 ^ 31 →
    (headers.flatMap fun h => R.writeMessage 2 h.byteSize h.serialize).length
      = 1 * headers.length + (headers.map fun h => R.sizeDelimited h.byteSize).sum
  | [], _ => rfl
  | h :: headers, hlt => by
      rw [List.flatMap_cons, List.length_append] at hlt
      have hhead := (length_inner 2 (by decide) HTTPHeader.byteSize_eq
        (by omega : (R.writeMessage 2 h.byteSize h.serialize).length < 2 ^ 31)).2
      have htail := length_headers headers (by omega)
      rw [List.flatMap_cons, List.length_append, hhead, htail, List.map_cons, List.sum_cons,
        List.length_cons]
      omega

theorem HTTPMessage.byteSize_eq {m : HTTPMessage R} (h : m.serialize.length < 2 ^ 31) :
    m.byteSize = m.serialize.length := by
  rw [HTTPMessage.serialize, List.length_append, List.length_append, List.length_append] at h
  have hline := length_elim_writeBytes (R := R) 1 (by decide) (o := m.firstLine) (by omega)
  have hbody := length_elim_writeBytes (R := R) 3 (by decide) (o := m.body) (by omega)
  have hheaders := length_headers m.header (by omega)
  have hunknown := length_writeUnknown R m.unknownFields
  rw [HTTPMessage.byteSize, HTTPMessage.serialize, List.length_append, List.length_append,
    List.length_append, ← hline, ← hbody, ← hheaders, ← hunknown, u32_of_lt (by omega)]
  omega

theorem length_elim_inner (number : Nat) (hn : 8 * number + 2 < 128) {o : Option (HTTPMessage R)}
    (h : (o.elim [] fun x => R.writeMessage number x.byteSize x.serialize).length < 2 ^ 31) :
    (o.elim [] fun x => R.writeMessage number x.byteSize x.serialize).length
      = o.elim 0 fun x => 1 + R.sizeDelimited x.byteSize := by
  cases o with
  | none => rfl
  | some x => exact (length_inner number hn HTTPMessage.byteSize_eq h).2

/-- The port is a `uint32`. -/
def RequestResponse.PortFits (m : RequestResponse R) : Prop := ∀ n, m.port = some n → n < 2 ^ 32

/-- **The sizes are right.** Of every record that can be written at all, with unknown
fields or without, `ByteSize` is the number of bytes that are written. -/
theorem RequestResponse.byteSize_eq_length {m : RequestResponse R} (hport : m.PortFits)
    (h : m.serialize.length < 2 ^ 31) : m.byteSize = m.serialize.length := by
  simp only [RequestResponse.serialize, List.length_append] at h
  have hip := length_elim_writeBytes (R := R) 1 (by decide) (o := m.ip) (by omega)
  have hrequest := length_elim_inner (R := R) 4 (by decide) (o := m.request) (by omega)
  have hresponse := length_elim_inner (R := R) 5 (by decide) (o := m.response) (by omega)
  have hunknown := length_writeUnknown R m.unknownFields
  have hportSize : (m.port.elim [] (R.writeVarint 2)).length
      = m.port.elim 0 fun n => 1 + R.varint.size n := by
    cases hp : m.port with
    | none => rfl
    | some n => exact length_writeVarint R (by decide) (hport n hp)
  have hscheme : (m.scheme.elim [] fun x => R.writeVarint 3 (schemeValue x)).length
      = m.scheme.elim 0 fun x => 1 + R.varint.size (schemeValue x) := by
    cases m.scheme with
    | none => rfl
    | some x => exact length_writeVarint R (by decide) (by cases x <;> decide)
  simp only [RequestResponse.byteSize, RequestResponse.serialize, List.length_append]
  rw [← hip, ← hrequest, ← hresponse, ← hunknown, ← hportSize, ← hscheme, u32_of_lt (by omega)]
  omega

theorem RequestResponse.byteSize_eq_length_two :
    RequestResponse.byteSize (R := plain) ⟨some (ascii "10.0.0.1"), some 8080, none,
        some ⟨none, [⟨some (ascii "Host"), none, []⟩], none, []⟩, none,
        [PlainField.addVarint 9 300]⟩
      = 26 := by
  rw [RequestResponse.byteSize_eq_length (fun n hn => by cases hn; decide) (by decide +kernel)]
  decide +kernel

/-! ## Reading what has been written -/

/-- A field that the header does not know: it can only have come from elsewhere. -/
structure HTTPHeader.WellFormed (m : HTTPHeader R) : Prop where
  unknown : ∀ f ∈ m.unknownFields, R.unknown.tag f ∉ [10, 18]

structure HTTPMessage.WellFormed (m : HTTPMessage R) : Prop where
  header : ∀ h ∈ m.header, h.WellFormed
  unknown : ∀ f ∈ m.unknownFields, R.unknown.tag f ∉ [10, 18, 26]

/-- An unknown field may also be a value that is no scheme. -/
structure RequestResponse.WellFormed (m : RequestResponse R) : Prop where
  port : m.PortFits
  request : ∀ x ∈ m.request, x.WellFormed
  response : ∀ x ∈ m.response, x.WellFormed
  unknown : ∀ f ∈ m.unknownFields, R.unknown.tag f ∉ [10, 16, 24, 34, 42] ∨
    ∃ n, n < 2 ^ 32 ∧ schemeOf n = none ∧ f = R.unknown.addVarint 3 n

/-- An optional field of bytes, by what it does to the member of the message. -/
theorem takes_optionalBytes {M : Type} {T : MessageType R M} {tag : Tag} {set : Bytes → M → M}
    {expected : List Tag} {last : Bool} (number : Nat) (member : Option Bytes → M)
    (hmem : bytesField R tag set expected last ∈ T.fields) (htag : tag.1 = 8 * number + 2)
    (hset : ∀ b o, set b (member o) = member (some b)) {o : Option Bytes}
    (h : (o.elim [] (R.writeBytes number)).length < 2 ^ 31) (o₀ : Option Bytes) :
    Takes T (o.elim [] (R.writeBytes number)) (member o₀) (member (o.or o₀)) := by
  refine Takes.option member (fun b hb o₁ => ?_) o₀
  rw [hb] at h
  simp only [Option.elim_some, R.writeBytes_eq, List.length_append] at h
  rw [← hset b o₁]
  exact Takes.bytesField hmem htag (by omega) _

theorem HTTPHeader.takes_unknown {fields : List R.unknown.Field}
    (h : ∀ f ∈ fields, R.unknown.tag f ∉ [10, 18]) (m : HTTPHeader R) :
    Takes (HTTPHeader.type R) (R.writeUnknown fields) m
      { m with unknownFields := m.unknownFields ++ fields } := by
  rw [R.writeUnknown_eq]
  refine Takes.flatMap (fun l => { m with unknownFields := l }) (fun f hf l => ?_)
    m.unknownFields
  refine Takes.unknown (fun g hg htag => h f hf ?_) _
  simp only [HTTPHeader.type, List.mem_cons, List.not_mem_nil, or_false] at hg
  rcases hg with rfl | rfl <;> simp [← htag, bytesField]

theorem HTTPHeader.takes_serialize {m : HTTPHeader R} (hm : m.WellFormed)
    (h : m.serialize.length < 2 ^ 31) (base : HTTPHeader R) :
    Takes (HTTPHeader.type R) m.serialize base (base.mergeFrom m) := by
  rw [HTTPHeader.serialize, List.length_append, List.length_append] at h
  have hkey := takes_optionalBytes (T := HTTPHeader.type R) 1 (fun o => { base with key := o })
    List.mem_cons_self rfl (fun _ _ => rfl) (o := m.key) (by omega) base.key
  have hvalue := takes_optionalBytes (T := HTTPHeader.type R) 2
    (fun o => { base with key := m.key.or base.key, value := o })
    (List.mem_cons_of_mem _ List.mem_cons_self) rfl (fun _ _ => rfl) (o := m.value) (by omega)
    base.value
  exact hkey.append (hvalue.append (HTTPHeader.takes_unknown hm.unknown _))

theorem HTTPHeader.cleared_mergeFrom (m : HTTPHeader R) : HTTPHeader.cleared.mergeFrom m = m := by
  simp [HTTPHeader.mergeFrom, HTTPHeader.cleared]

theorem HTTPHeader.parse_serialize {m : HTTPHeader R} (hm : m.WellFormed)
    (h : m.serialize.length < 2 ^ 31) (look : Lookahead) :
    parsePartial (HTTPHeader.type R) look m.serialize .cleared = some (m, true) := by
  rw [(HTTPHeader.takes_serialize hm h .cleared).parse look, HTTPHeader.cleared_mergeFrom]

theorem HTTPMessage.takes_headers {look : Bytes → Lookahead} {headers : List (HTTPHeader R)}
    (hwell : ∀ x ∈ headers, x.WellFormed)
    (h : (headers.flatMap fun x => R.writeMessage 2 x.byteSize x.serialize).length < 2 ^ 31)
    (m : HTTPMessage R) :
    Takes (HTTPMessage.type R look)
      (headers.flatMap fun x => R.writeMessage 2 x.byteSize x.serialize) m
      { m with header := m.header ++ headers } := by
  refine Takes.flatMap (fun l => { m with header := l }) (fun x hx l => ?_) m.header
  have hlt : (R.writeMessage 2 x.byteSize x.serialize).length < 2 ^ 31 := by
    obtain ⟨before, behind, rfl⟩ := List.append_of_mem hx
    rw [List.flatMap_append, List.flatMap_cons, List.length_append, List.length_append] at h
    omega
  obtain ⟨hsize, -⟩ := length_inner 2 (by decide) HTTPHeader.byteSize_eq hlt
  have hshort : x.serialize.length < 2 ^ 31 := by
    simp only [R.writeMessage_eq, List.length_append] at hlt
    omega
  have hmem : _ ∈ (HTTPMessage.type R look).fields := List.mem_cons_of_mem _ List.mem_cons_self
  rw [hsize]
  exact Takes.messageField hmem rfl (by omega)
    fun at' => HTTPHeader.parse_serialize (hwell x hx) hshort (look at')

theorem HTTPMessage.takes_unknown {look : Bytes → Lookahead} {fields : List R.unknown.Field}
    (h : ∀ f ∈ fields, R.unknown.tag f ∉ [10, 18, 26]) (m : HTTPMessage R) :
    Takes (HTTPMessage.type R look) (R.writeUnknown fields) m
      { m with unknownFields := m.unknownFields ++ fields } := by
  rw [R.writeUnknown_eq]
  refine Takes.flatMap (fun l => { m with unknownFields := l }) (fun f hf l => ?_)
    m.unknownFields
  refine Takes.unknown (fun g hg htag => h f hf ?_) _
  simp only [HTTPMessage.type, List.mem_cons, List.not_mem_nil, or_false] at hg
  rcases hg with rfl | rfl | rfl <;> simp [← htag, bytesField, messageField]

theorem HTTPMessage.takes_serialize {look : Bytes → Lookahead} {m : HTTPMessage R}
    (hm : m.WellFormed) (h : m.serialize.length < 2 ^ 31) (base : HTTPMessage R) :
    Takes (HTTPMessage.type R look) m.serialize base (base.mergeFrom m) := by
  rw [HTTPMessage.serialize, List.length_append, List.length_append, List.length_append] at h
  have hline := takes_optionalBytes (T := HTTPMessage.type R look) 1
    (fun o => { base with firstLine := o }) List.mem_cons_self rfl (fun _ _ => rfl)
    (o := m.firstLine) (by omega) base.firstLine
  have hheaders : Takes (HTTPMessage.type R look) _ _ _ :=
    HTTPMessage.takes_headers hm.header (by omega)
      { base with firstLine := m.firstLine.or base.firstLine }
  have hbody := takes_optionalBytes (T := HTTPMessage.type R look) 3
    (fun o => { base with
      firstLine := m.firstLine.or base.firstLine, header := base.header ++ m.header, body := o })
    (List.mem_cons_of_mem _ (List.mem_cons_of_mem _ List.mem_cons_self)) rfl (fun _ _ => rfl)
    (o := m.body) (by omega) base.body
  exact hline.append (hheaders.append (hbody.append (HTTPMessage.takes_unknown hm.unknown _)))

theorem HTTPMessage.cleared_mergeFrom (m : HTTPMessage R) :
    HTTPMessage.cleared.mergeFrom m = m := by
  simp [HTTPMessage.mergeFrom, HTTPMessage.cleared]

theorem takes_inner {T : MessageType R (RequestResponse R)} {tag : Tag} {looks : Lookaheads}
    {get : RequestResponse R → HTTPMessage R}
    {set : HTTPMessage R → RequestResponse R → RequestResponse R} {expected : List Tag} {last : Bool}
    (number : Nat) (member : Option (HTTPMessage R) → RequestResponse R)
    (hmem : messageField R tag
      (fun at' => parsePartial (HTTPMessage.type R (looks.header at')) (looks.message at')) get set
      expected last ∈ T.fields)
    (htag : tag.1 = 8 * number + 2) (hn : 8 * number + 2 < 128)
    (hget : ∀ o, get (member o) = o.getD .cleared)
    (hset : ∀ x o, set x (member o) = member (some x)) {o : Option (HTTPMessage R)}
    (hwell : ∀ x ∈ o, x.WellFormed)
    (h : (o.elim [] fun x => R.writeMessage number x.byteSize x.serialize).length < 2 ^ 31)
    (o₀ : Option (HTTPMessage R)) :
    Takes T (o.elim [] fun x => R.writeMessage number x.byteSize x.serialize) (member o₀)
      (member (mergeInner o₀ o)) := by
  cases o with
  | none => exact .nil T _
  | some x =>
      simp only [Option.elim_some] at h ⊢
      obtain ⟨hsize, -⟩ := length_inner number hn HTTPMessage.byteSize_eq h
      have hshort : x.serialize.length < 2 ^ 31 := by
        simp only [R.writeMessage_eq, List.length_append] at h
        omega
      have hparse : ∀ at', parsePartial (HTTPMessage.type R (looks.header at')) (looks.message at')
          x.serialize (get (member o₀)) = some ((o₀.getD .cleared).mergeFrom x, true) := by
        intro at'
        rw [hget]
        exact (HTTPMessage.takes_serialize (hwell x rfl) hshort _).parse _
      rw [hsize]
      have htakes := Takes.messageField hmem htag (by omega) hparse
      rwa [hset] at htakes

/-- Values that are no scheme are read back as the unknown fields that they are. -/
theorem RequestResponse.takes_unknown {looks : Lookaheads} {fields : List R.unknown.Field}
    (h : ∀ f ∈ fields, R.unknown.tag f ∉ [10, 16, 24, 34, 42] ∨
      ∃ n, n < 2 ^ 32 ∧ schemeOf n = none ∧ f = R.unknown.addVarint 3 n) (m : RequestResponse R) :
    Takes (RequestResponse.type R looks) (R.writeUnknown fields) m
      { m with unknownFields := m.unknownFields ++ fields } := by
  rw [R.writeUnknown_eq]
  refine Takes.flatMap (fun l => { m with unknownFields := l }) (fun f hf l => ?_)
    m.unknownFields
  rcases h f hf with htag | ⟨n, hn, hscheme, rfl⟩
  · refine Takes.unknown (fun g hg heq => htag ?_) _
    simp only [RequestResponse.type, List.mem_cons, List.not_mem_nil, or_false] at hg
    rcases hg with rfl | rfl | rfl | rfl | rfl <;> simp [← heq, bytesField, varintField, messageField]
  · have hmem : _ ∈ (RequestResponse.type R looks).fields :=
      List.mem_cons_of_mem _ (List.mem_cons_of_mem _ List.mem_cons_self)
    rw [R.unknown.tag_addVarint (by decide) (by decide) hn]
    refine Takes.field hmem fun rest => ?_
    show (R.varint.read _).map _ = _
    rw [R.unknown.read_addVarint (by decide) (by decide) hn]
    simp only [Option.map_some, RequestResponse.setScheme, hscheme]

theorem schemeOf_value (x : Scheme) : schemeOf (schemeValue x) = some x := by
  cases x <;> rfl

/-- **What has been written is taken**, into whatever record it is read, as `MergeFrom`
would take it. -/
theorem RequestResponse.takes_serialize {looks : Lookaheads} {m : RequestResponse R}
    (hm : m.WellFormed) (h : m.serialize.length < 2 ^ 31) (base : RequestResponse R) :
    Takes (RequestResponse.type R looks) m.serialize base (base.mergeFrom m) := by
  simp only [RequestResponse.serialize, List.length_append] at h
  have hfield₂ : _ ∈ (RequestResponse.type R looks).fields :=
    List.mem_cons_of_mem _ List.mem_cons_self
  have hfield₃ : _ ∈ (RequestResponse.type R looks).fields :=
    List.mem_cons_of_mem _ (List.mem_cons_of_mem _ List.mem_cons_self)
  have hfield₄ : _ ∈ (RequestResponse.type R looks).fields :=
    List.mem_cons_of_mem _ (List.mem_cons_of_mem _ (List.mem_cons_of_mem _ List.mem_cons_self))
  have hfield₅ : _ ∈ (RequestResponse.type R looks).fields :=
    List.mem_cons_of_mem _ (List.mem_cons_of_mem _ (List.mem_cons_of_mem _
      (List.mem_cons_of_mem _ List.mem_cons_self)))
  have hip := takes_optionalBytes (T := RequestResponse.type R looks) 1
    (fun o => { base with ip := o }) List.mem_cons_self rfl (fun _ _ => rfl) (o := m.ip) (by omega)
    base.ip
  have hport : Takes (RequestResponse.type R looks) (m.port.elim [] (R.writeVarint 2))
      { base with ip := m.ip.or base.ip }
      { base with ip := m.ip.or base.ip, port := m.port.or base.port } := by
    refine Takes.option (fun o => { base with ip := m.ip.or base.ip, port := o })
      (fun n hn o₀ => ?_) base.port
    exact Takes.varintField hfield₂ rfl (hm.port n hn) _
  have hscheme : Takes (RequestResponse.type R looks)
      (m.scheme.elim [] fun x => R.writeVarint 3 (schemeValue x))
      { base with ip := m.ip.or base.ip, port := m.port.or base.port }
      { base with
        ip := m.ip.or base.ip, port := m.port.or base.port, scheme := m.scheme.or base.scheme } := by
    refine Takes.option (fun o => { base with
      ip := m.ip.or base.ip, port := m.port.or base.port, scheme := o }) (fun x _ o₀ => ?_) base.scheme
    have hvalue : schemeValue x < 2 ^ 32 := by cases x <;> decide
    have htakes := Takes.varintField hfield₃ (show 24 = 8 * 3 from rfl) hvalue
      { base with ip := m.ip.or base.ip, port := m.port.or base.port, scheme := o₀ }
    simp only [RequestResponse.setScheme, schemeOf_value] at htakes
    exact htakes
  have hrequest := takes_inner (T := RequestResponse.type R looks) 4
    (fun o => { base with
      ip := m.ip.or base.ip, port := m.port.or base.port, scheme := m.scheme.or base.scheme,
      request := o })
    hfield₄ rfl (by decide) (fun _ => rfl) (fun _ _ => rfl) hm.request (by omega)
    base.request
  have hresponse := takes_inner (T := RequestResponse.type R looks) 5
    (fun o => { base with
      ip := m.ip.or base.ip, port := m.port.or base.port, scheme := m.scheme.or base.scheme,
      request := mergeInner base.request m.request, response := o })
    hfield₅ rfl (by decide) (fun _ => rfl) (fun _ _ => rfl) hm.response (by omega)
    base.response
  exact hip.append (hport.append (hscheme.append (hrequest.append (hresponse.append
    (RequestResponse.takes_unknown hm.unknown _)))))

theorem mergeInner_none (o : Option (HTTPMessage R)) : mergeInner none o = o := by
  cases o with
  | none => rfl
  | some x => exact congrArg some (HTTPMessage.cleared_mergeFrom x)

theorem RequestResponse.cleared_mergeFrom (m : RequestResponse R) :
    RequestResponse.cleared.mergeFrom m = m := by
  simp [RequestResponse.mergeFrom, RequestResponse.cleared, mergeInner_none]

/-! ## Records in memory -/

/-- `HTTPHeader::toprotobuf`. -/
def HTTPHeader.ofHeader (h : Mahimahi.HTTPHeader) : HTTPHeader R := ⟨some h.key, some h.value, []⟩

/-- `HTTPMessage::toprotobuf`, of what it sets. -/
def HTTPMessage.ofProto (p : HTTPMessageProto) : HTTPMessage R :=
  ⟨some p.firstLine, p.header.map HTTPHeader.ofHeader, some p.body, []⟩

/-- The message that `HTTPDiskStore::save` constructs. -/
def RequestResponse.ofRecord (r : Mahimahi.RequestResponse) : RequestResponse R :=
  ⟨some r.ip, some r.port, some r.scheme, some (HTTPMessage.ofProto r.request),
    some (HTTPMessage.ofProto r.response), []⟩

/-- The getters: a field that is not set has its default. -/
def HTTPHeader.get (m : HTTPHeader R) : Mahimahi.HTTPHeader := ⟨m.key.getD [], m.value.getD []⟩

def HTTPMessage.get (m : HTTPMessage R) : HTTPMessageProto :=
  ⟨m.firstLine.getD [], m.header.map HTTPHeader.get, m.body.getD []⟩

def RequestResponse.get (m : RequestResponse R) : Mahimahi.RequestResponse where
  ip := m.ip.getD []
  port := m.port.getD 0
  scheme := m.scheme.getD .http
  request := (m.request.getD .cleared).get
  response := (m.response.getD .cleared).get

theorem HTTPMessage.get_ofProto (p : HTTPMessageProto) :
    (HTTPMessage.ofProto p : HTTPMessage R).get = p := by
  have hheader : HTTPHeader.get ∘ HTTPHeader.ofHeader (R := R) = id := rfl
  simp [HTTPMessage.ofProto, HTTPMessage.get, hheader]

theorem RequestResponse.get_ofRecord (r : Mahimahi.RequestResponse) :
    (RequestResponse.ofRecord r : RequestResponse R).get = r := by
  simp [RequestResponse.ofRecord, RequestResponse.get, HTTPMessage.get_ofProto]

theorem HTTPMessage.wellFormed_ofProto (p : HTTPMessageProto) :
    (HTTPMessage.ofProto p : HTTPMessage R).WellFormed where
  header h hh := by
    obtain ⟨header, -, rfl⟩ := List.mem_map.mp hh
    exact ⟨fun f hf => (by cases hf)⟩
  unknown f hf := by cases hf

theorem RequestResponse.wellFormed_ofRecord {r : Mahimahi.RequestResponse} (h : r.port < 2 ^ 32) :
    (RequestResponse.ofRecord r : RequestResponse R).WellFormed where
  port n hn := by
    cases hn
    exact h
  request x hx := by
    cases hx
    exact HTTPMessage.wellFormed_ofProto _
  response x hx := by
    cases hx
    exact HTTPMessage.wellFormed_ofProto _
  unknown f hf := by cases hf

/-! ## The files -/

/-- What `SerializeToFileDescriptor` writes, record behind record. -/
def serializeAll (ms : List (RequestResponse R)) : Bytes := ms.flatMap RequestResponse.serialize

theorem takes_serializeAll {looks : Lookaheads} : ∀ {ms : List (RequestResponse R)},
    (∀ m ∈ ms, m.WellFormed) → (serializeAll ms).length < 2 ^ 31 → ∀ base : RequestResponse R,
    Takes (RequestResponse.type R looks) (serializeAll ms) base (ms.foldl .mergeFrom base)
  | [], _, _, base => .nil _ base
  | m :: ms, hwell, h, base => by
      rw [serializeAll, List.flatMap_cons, List.length_append] at h
      have hhead : Takes (RequestResponse.type R looks) _ _ _ :=
        RequestResponse.takes_serialize (hwell m List.mem_cons_self) (by omega) base
      exact hhead.append (takes_serializeAll (fun x hx => hwell x (List.mem_cons_of_mem _ hx))
        (by rw [serializeAll]; omega) _)

theorem parse_serialize (looks : Lookaheads) {m : RequestResponse R} (hm : m.WellFormed)
    (h : m.serialize.length < 2 ^ 31) (hlimit : m.serialize.length < R.totalBytesLimit) :
    RequestResponse.parseFromFileDescriptor R looks m.serialize = some m := by
  have htakes : Takes (RequestResponse.type R looks) m.serialize .cleared _ :=
    RequestResponse.takes_serialize hm h .cleared
  have hparse := htakes.parse looks.record
  rw [RequestResponse.cleared_mergeFrom] at hparse
  exact R.parse_file hlimit hparse

/-- **What has been written is read back.** A file of records, one behind the other, is
read as the one record that `MergeFrom` makes of them in memory; so a single record is
read back as it was, with its unknown fields and whatever is not set in it. -/
theorem parse_serializeAll (looks : Lookaheads) {ms : List (RequestResponse R)}
    (hwell : ∀ m ∈ ms, m.WellFormed) (h : (serializeAll ms).length < 2 ^ 31)
    (hlimit : (serializeAll ms).length < R.totalBytesLimit) :
    RequestResponse.parseFromFileDescriptor R looks (serializeAll ms)
        = some (ms.foldl .mergeFrom .cleared) ∧
      ∀ m, ms = [m] → RequestResponse.parseFromFileDescriptor R looks m.serialize = some m := by
  refine ⟨R.parse_file hlimit ((takes_serializeAll hwell h .cleared).parse looks.record), ?_⟩
  rintro m rfl
  rw [serializeAll, List.flatMap_singleton] at h hlimit
  exact parse_serialize looks (hwell m List.mem_cons_self) h hlimit

/-- A record with a scheme that there is not. -/
def strayScheme : RequestResponse plain :=
  ⟨none, some 80, none, none, none, [PlainField.addVarint 3 7]⟩

theorem strayScheme_wellFormed : strayScheme.WellFormed := by
  refine ⟨fun n hn => by cases hn; decide, nofun, nofun, fun f hf => .inr ?_⟩
  obtain rfl := List.mem_singleton.mp hf
  exact ⟨7, by decide, rfl, rfl⟩

/-- By itself, and with a whole record behind it. -/
theorem parse_serializeAll_two :
    RequestResponse.parseFromFileDescriptor plain .never strayScheme.serialize = some strayScheme ∧
    RequestResponse.parseFromFileDescriptor plain .never (serializeAll [strayScheme,
        .ofRecord ⟨ascii "10.0.0.1", 443, .https, ⟨ascii "GET / HTTP/1.1", [], []⟩,
          ⟨ascii "HTTP/1.1 200 OK", [], ascii "hi"⟩⟩])
      = some ⟨some (ascii "10.0.0.1"), some 443, some .https,
          some ⟨some (ascii "GET / HTTP/1.1"), [], some [], []⟩,
          some ⟨some (ascii "HTTP/1.1 200 OK"), [], some (ascii "hi"), []⟩,
          [PlainField.addVarint 3 7]⟩ := by
  constructor
  · have hwell : ∀ m ∈ [strayScheme], m.WellFormed := by
      simpa using strayScheme_wellFormed
    exact (parse_serializeAll .never hwell (by decide +kernel) (by decide +kernel)).2 _ rfl
  · rw [(parse_serializeAll .never _ (by decide +kernel) (by decide +kernel)).1]
    · rfl
    · intro m hm
      rcases List.mem_pair.mp hm with rfl | rfl
      · exact strayScheme_wellFormed
      · exact RequestResponse.wellFormed_ofRecord (by decide)

theorem HTTPMessage.type_lookahead (look : Bytes → Lookahead) :
    HTTPMessage.type R look = HTTPMessage.type R fun _ => .never := by
  have hparse : (fun at' => parsePartial (HTTPHeader.type R) (look at'))
      = fun _ => parsePartial (HTTPHeader.type R) .never := by
    funext at' bytes m
    exact parsePartial_lookahead _ _ _ _
  simp only [HTTPMessage.type, hparse]

/-- **The short cuts of the readers change nothing.** Whatever the file holds, and
wherever the three readers see the field ahead or overlook it, they come to what the
plain loops over the tags come to. -/
theorem parse_lookahead (looks : Lookaheads) (file : Bytes) :
    RequestResponse.parseFromFileDescriptor R looks file
      = RequestResponse.parseFromFileDescriptor R .never file := by
  have hparse : (fun at' => parsePartial (HTTPMessage.type R (looks.header at')) (looks.message at'))
      = fun _ => parsePartial (HTTPMessage.type R fun _ => .never) .never := by
    funext at' bytes m
    rw [parsePartial_lookahead, HTTPMessage.type_lookahead]
  have htype : RequestResponse.type R looks = RequestResponse.type R .never := by
    simp only [RequestResponse.type, hparse, Lookaheads.never]
  have hreader : parsePartial (RequestResponse.type R looks) looks.record
      = parsePartial (RequestResponse.type R .never) .never := by
    funext bytes m
    rw [htype, parsePartial_lookahead]
  rw [RequestResponse.parseFromFileDescriptor, RequestResponse.parseFromFileDescriptor, hreader]
  rfl

end MahimahiProtobufs

open MahimahiProtobufs Wire

/-! ## Records on disk -/

/-- A file of the recording directory, by its name and its contents. -/
structure DiskFile where
  name : Bytes
  contents : Bytes
  deriving DecidableEq, Repr

/-- What `replayserver` makes of a file. -/
def DiskFile.load (R : Runtime) (looks : Lookaheads) (file : DiskFile) : RecordFile where
  name := file.name
  parsed := (RequestResponse.parseFromFileDescriptor R looks file.contents).map RequestResponse.get

/-- `HTTPDiskStore::save`, with the name that `UniqueFile` has found: the folder, `save`
and an ending of its own. -/
def saveToDisk (R : Runtime) (recordFolder suffix : Bytes) (response : HTTPResponse)
    (serverAddress : Address) : Except Fault DiskFile := do
  let output ← save response serverAddress
  return ⟨recordFolder ++ ascii "save" ++ ascii "." ++ suffix,
    (RequestResponse.ofRecord output : MahimahiProtobufs.RequestResponse R).serialize⟩

theorem find_isSome_of_mem (needle x y : Bytes) :
    (find needle (x ++ (needle ++ y))).isSome = true := by
  cases h : find needle (x ++ (needle ++ y)) with
  | some i => rfl
  | none =>
      refine absurd ?_ (not_prefix_of_find_eq_none h x.length)
      rw [List.drop_left]
      exact List.prefix_append needle y

/-- The port of an address is 16 bits wide, and a file has to fit into an `int` and the
limit of the streams. -/
structure Storable (R : Runtime) (server : Address) (file : DiskFile) : Prop where
  port : server.port < 2 ^ 16
  size : file.contents.length < 2 ^ 31
  limit : file.contents.length < R.totalBytesLimit

/-- **A record comes back from the disk**: what `save` has written, `replayserver` loads
as the record that was saved. -/
theorem load_saveToDisk {R : Runtime} (looks : Lookaheads) {recordFolder suffix : Bytes}
    {x : Exchange} {file : DiskFile}
    (h : saveToDisk R recordFolder suffix x.response x.server = .ok file)
    (hfits : Storable R x.server file) : Exchange.SavedIn (file.load R looks) x := by
  obtain ⟨record, hsave, hfile⟩ := bind_eq_ok.mp h
  cases hfile
  have hport : record.port < 2 ^ 32 := by
    simp only [save, bind_eq_ok, pure_eq_ok, Except.ok.injEq] at hsave
    obtain ⟨_, -, _, -, rfl⟩ := hsave
    have := hfits.port
    show x.server.port < 2 ^ 32
    omega
  refine ⟨record, hsave, ?_, ?_⟩
  · show (find _ _).isSome = true
    rw [List.append_assoc, List.append_assoc]
    exact find_isSome_of_mem _ _ _
  · show Option.map _ _ = _
    rw [parse_serialize looks (RequestResponse.wellFormed_ofRecord hport) hfits.size hfits.limit,
      Option.map_some, RequestResponse.get_ofRecord]

end Mahimahi
