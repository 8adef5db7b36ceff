import Mahimahi.HTTPMessage

/-!
# Reading the body of a message

What a read of body bytes can do, in one place: it fails, or takes all the
bytes and leaves the message pending (`GoesOn`), or takes some and completes
it (`Ends`). `readInBody_cases` says so of every message whose body is due
(`Due`), and the lemmas after it say how the outcome depends on where the
bytes are cut.

The part that a subclass implements enters through `HTTPBodyLaws`. A request
satisfies the laws since it never reads a body of unknown length; a response
because its body parser does.
-/

namespace Mahimahi

/-! ## Faults -/

/-- The assertions of the message and of the sequence of messages. -/
def messageAssertions : List String :=
  ["state_ == FIRST_LINE_PENDING", "state_ == HEADERS_PENDING", "state_ == BODY_PENDING",
    "state_ == COMPLETE", "body_.size() <= expected_body_size()", "state_ > HEADERS_PENDING",
    "body_size_is_known()", "false", "first_line_ending != std::string::npos",
    "buffer_.size() >= num",
    "bytes_read == buffer_.str().size() or message_in_progress_.state() == COMPLETE"]

/-- A fault that is none of these assertions, nor a loop without an end. -/
def Fault.Foreign (e : Fault) : Prop :=
  e ≠ .diverges ∧ ∀ expr ∈ messageAssertions, e ≠ .assertion expr

/-- Every fault of a computation is foreign. -/
def FailsForeign {α : Type} (x : Except Fault α) : Prop := ∀ e, x = .error e → e.Foreign

namespace FailsForeign

variable {α β : Type}

theorem ok (a : α) : FailsForeign (.ok a : Except Fault α) := by
  intro e he
  cases he

theorem error {e : Fault} (h : e.Foreign) : FailsForeign (.error e : Except Fault α) := by
  intro e' he
  cases he
  exact h

theorem bind {x : Except Fault α} {f : α → Except Fault β} (hx : FailsForeign x)
    (hf : ∀ a, x = .ok a → FailsForeign (f a)) : FailsForeign (x >>= f) := by
  intro e he
  cases h : x with
  | error e' =>
      rw [h] at he
      cases he
      exact hx _ h
  | ok a =>
      rw [h] at he
      exact hf a h e he

theorem assertThat {cond : Bool} {expr : String} (h : cond = false → expr ∉ messageAssertions) :
    FailsForeign (assertThat cond expr) := by
  cases cond with
  | true => exact ok ()
  | false =>
      refine error ⟨by simp, ?_⟩
      rintro expr' hmem heq
      cases heq
      exact h rfl hmem

end FailsForeign

theorem foreign_of_not_assertion {e : Fault} (hd : e ≠ .diverges)
    (h : ∀ expr, e ≠ .assertion expr) : e.Foreign :=
  ⟨hd, fun expr _ => h expr⟩

theorem failsForeign_substr (s : Bytes) (pos len : Nat) : FailsForeign (substr s pos len) := by
  unfold substr
  split
  · exact .error (foreign_of_not_assertion (by simp) (by simp))
  · exact .ok _

theorem failsForeign_myatoi (s : Bytes) (base : Nat) : FailsForeign (myatoi s base) := by
  have hrun : ∀ t, (Fault.runtimeError t).Foreign := fun t =>
    foreign_of_not_assertion (by simp) (by simp)
  have hrun' : ∀ t d, (Fault.runtimeErrorWith t d).Foreign := fun t d =>
    foreign_of_not_assertion (by simp) (by simp)
  have hsys : ∀ t, (Fault.systemError t).Foreign := fun t =>
    foreign_of_not_assertion (by simp) (by simp)
  unfold myatoi
  split
  · exact .error (hrun _)
  · dsimp only
    split
    · exact .error (hsys _)
    · split
      · exact .error (hrun' _ _)
      · exact .ok _

theorem failsForeign_innerTokens (str separator : Bytes) : ∀ (i : Nat) (indices : List Nat),
    FailsForeign (innerTokens str separator i indices)
  | _, [] => (failsForeign_substr _ _ _).bind fun _ _ => .ok _
  | _, j :: indices =>
      (failsForeign_substr _ _ _).bind fun _ _ =>
        (failsForeign_innerTokens str separator j indices).bind fun _ _ => .ok _

theorem failsForeign_split (str separator : Bytes) : FailsForeign (split str separator) := by
  unfold split
  split
  · exact .ok _
  · exact (failsForeign_substr _ _ _).bind fun _ _ =>
      (failsForeign_innerTokens _ _ _ _).bind fun _ _ => .ok _

/-! ## The outcomes of a read -/

/-- What a subclass has to say about its messages. -/
class HTTPBodyView (X : Type) where
  /-- The members of the subclass that matter for a complete message. -/
  forget : X → X
  /-- The members as they are while no body of unknown length is due. -/
  Plain : X → Prop
  /-- What holds between two reads of a body of unknown length. -/
  Settled : HTTPMessage X → Prop
  /-- A condition on a read of a body of unknown length. -/
  SmallSizes : Bytes → HTTPMessage X → Prop

section

variable {X : Type} [HTTPBodyView X]

/-- The read took all of `str`, and the message waits for more. -/
structure HTTPMessage.GoesOn (r : Except Fault (Nat × HTTPMessage X)) (str : Bytes)
    (m m' : HTTPMessage X) :
    Prop where
  result : r = .ok (str.length, m')
  rest : m' = { m with body := m.body ++ str, derived := m'.derived }
  forget : HTTPBodyView.forget m'.derived = HTTPBodyView.forget m.derived

/-- The read took `n` bytes of `str`, which complete the message. -/
structure HTTPMessage.Ends (r : Except Fault (Nat × HTTPMessage X)) (str : Bytes)
    (m : HTTPMessage X) (n : Nat) :
    Prop where
  result : ∃ d, r = .ok (n, { m with
    body := m.body ++ str.take n
    state := .complete
    derived := d }) ∧ HTTPBodyView.forget d = HTTPBodyView.forget m.derived
  le : n ≤ str.length

/-- The laws that `calculate_expected_body_size` and `read_in_complex_body`
of a subclass satisfy. -/
class HTTPBodyLaws (X : Type) [HTTPMessageType X] extends HTTPBodyView X where
  plain_initial : Plain HTTPMessageType.initial
  calculate_ok {m m' : HTTPMessage X} :
    HTTPMessageType.calculateExpectedBodySize m = .ok m' →
      m' = { m with expectedBodySize := m'.expectedBodySize, derived := m'.derived } ∧
        forget m'.derived = forget m.derived ∧ (m'.expectedBodySize.1 = false → Settled m') ∧
        (m'.expectedBodySize.1 = true → m'.derived = m.derived)
  calculate_error {m : HTTPMessage X} : m.state = .bodyPending →
    FailsForeign (HTTPMessageType.calculateExpectedBodySize m)
  eofInBody_error {m : HTTPMessage X} : FailsForeign (HTTPMessageType.eofInBody m)
  eofInBody_plain {m : HTTPMessage X} : Plain m.derived →
    HTTPMessageType.eofInBody m ≠ .ok true
  eofInBody_ok {m : HTTPMessage X} : HTTPMessageType.eofInBody m ≠ .ok false
  read_cases {m : HTTPMessage X} (x : Bytes) : Settled m → m.state = .bodyPending →
    (∃ e, HTTPMessageType.readInComplexBody x m = .error e ∧ e.Foreign) ∨
    (∃ m', HTTPMessage.GoesOn (HTTPMessageType.readInComplexBody x m) x m m' ∧ Settled m') ∨
    ∃ n, HTTPMessage.Ends (HTTPMessageType.readInComplexBody x m) x m n
  append_error {m : HTTPMessage X} {x y : Bytes} {e : Fault} : Settled m →
    m.state = .bodyPending → SmallSizes (x ++ y) m →
    HTTPMessageType.readInComplexBody x m = .error e →
    HTTPMessageType.readInComplexBody (x ++ y) m = .error e
  append_ends {m : HTTPMessage X} {x y : Bytes} {n : Nat} : Settled m →
    m.state = .bodyPending → SmallSizes (x ++ y) m →
    HTTPMessage.Ends (HTTPMessageType.readInComplexBody x m) x m n →
    HTTPMessage.Ends (HTTPMessageType.readInComplexBody (x ++ y) m) (x ++ y) m n
  append_goesOn {m m₁ : HTTPMessage X} {x y : Bytes} : Settled m →
    m.state = .bodyPending → SmallSizes (x ++ y) m →
    HTTPMessage.GoesOn (HTTPMessageType.readInComplexBody x m) x m m₁ →
    SmallSizes y m₁ ∧
      (∀ e, HTTPMessageType.readInComplexBody y m₁ = .error e →
        HTTPMessageType.readInComplexBody (x ++ y) m = .error e) ∧
      (∀ m₂, HTTPMessage.GoesOn (HTTPMessageType.readInComplexBody y m₁) y m₁ m₂ →
        HTTPMessage.GoesOn (HTTPMessageType.readInComplexBody (x ++ y) m) (x ++ y) m m₂) ∧
      ∀ n, HTTPMessage.Ends (HTTPMessageType.readInComplexBody y m₁) y m₁ n →
        HTTPMessage.Ends (HTTPMessageType.readInComplexBody (x ++ y) m) (x ++ y) m (x.length + n)
  small_left {m : HTTPMessage X} {x y : Bytes} : SmallSizes (x ++ y) m → SmallSizes x m
  small_append {m m₁ : HTTPMessage X} {x y : Bytes} : Settled m → m.state = .bodyPending →
    HTTPMessage.GoesOn (HTTPMessageType.readInComplexBody x m) x m m₁ →
    SmallSizes x m → SmallSizes y m₁ → SmallSizes (x ++ y) m
  small_extend {m : HTTPMessage X} {x y : Bytes} {n : Nat} : Settled m → m.state = .bodyPending →
    HTTPMessage.Ends (HTTPMessageType.readInComplexBody x m) x m n →
    SmallSizes x m → SmallSizes (x ++ y) m
  take_ends {m : HTTPMessage X} {x : Bytes} {n : Nat} : Settled m →
    m.state = .bodyPending → SmallSizes x m →
    HTTPMessage.Ends (HTTPMessageType.readInComplexBody x m) x m n →
    HTTPMessage.Ends (HTTPMessageType.readInComplexBody (x.take n) m) (x.take n) m n

end

/-! ## Reads of any body -/

namespace HTTPMessage

section

variable {X : Type} [HTTPMessageType X] {m : HTTPMessage X} {x : Bytes}

theorem readInBody_of_unknown (hstate : m.state = .bodyPending)
    (hu : m.expectedBodySize.1 = false) :
    m.readInBody x = HTTPMessageType.readInComplexBody x m := by
  simp [readInBody, bodySizeIsKnown, hstate, hu]

theorem readInBody_of_known (hstate : m.state = .bodyPending) (hk : m.expectedBodySize.1 = true)
    (hle : m.body.length ≤ m.expectedBodySize.2) :
    m.readInBody x = .ok (min (m.expectedBodySize.2 - m.body.length) x.length,
      { m with
        body := m.body ++ x.take (min (m.expectedBodySize.2 - m.body.length) x.length)
        state := if m.expectedBodySize.2 - m.body.length ≤ x.length then .complete
          else .bodyPending }) := by
  have hlen : (m.body ++ x.take (min (m.expectedBodySize.2 - m.body.length) x.length)).length
      = m.expectedBodySize.2 ↔ m.expectedBodySize.2 - m.body.length ≤ x.length := by
    rw [List.length_append, List.length_take]
    omega
  simp only [readInBody, bodySizeIsKnown, getExpectedBodySize, hstate, hk, hle, hlen, beq_self_eq_true,
    Bool.true_or, assertThat_true, ok_bind, pure_eq_ok, if_true, decide_true]

end

section

variable {X : Type} [HTTPMessageType X] [HTTPBodyLaws X]

/-- The body of the message is due: it has not got more than it expects, or
does not know how much to expect. -/
structure Due (m : HTTPMessage X) : Prop where
  state : m.state = .bodyPending
  known : m.expectedBodySize.1 = true → m.body.length ≤ m.expectedBodySize.2
  unknown : m.expectedBodySize.1 = false → HTTPBodyView.Settled m
  plain : m.expectedBodySize.1 = true → HTTPBodyView.Plain m.derived

/-- The condition of the laws, where it plays a part. -/
def SmallReads (x : Bytes) (m : HTTPMessage X) : Prop :=
  m.expectedBodySize.1 = false → HTTPBodyView.SmallSizes x m

variable {m m' m₁ : HTTPMessage X} {x y : Bytes} {n : Nat} {e : Fault}

theorem goesOn_known_iff (hd : m.Due) (hk : m.expectedBodySize.1 = true) :
    GoesOn (m.readInBody x) x m m' ↔
      x.length < m.expectedBodySize.2 - m.body.length ∧ m' = { m with body := m.body ++ x } := by
  have hread := readInBody_of_known (x := x) hd.state hk (hd.known hk)
  constructor
  · rintro ⟨hresult, hrest, -⟩
    rw [hread] at hresult
    obtain ⟨hmin, hm'⟩ := Prod.mk.inj (Except.ok.inj hresult)
    have hstate : m'.state = .bodyPending := by
      rw [hrest]
      exact hd.state
    have hlt : ¬ m.expectedBodySize.2 - m.body.length ≤ x.length := by
      intro hle
      rw [← hm', if_pos hle] at hstate
      cases hstate
    refine ⟨Nat.lt_of_not_le hlt, ?_⟩
    rw [← hm', hmin, List.take_length, if_neg hlt]
    simp [← hd.state]
  · rintro ⟨hlt, rfl⟩
    refine ⟨?_, rfl, rfl⟩
    rw [hread, Nat.min_eq_right (Nat.le_of_lt hlt), List.take_length,
      if_neg (Nat.not_le.mpr hlt)]
    simp [← hd.state]

theorem ends_known_iff (hd : m.Due) (hk : m.expectedBodySize.1 = true) :
    Ends (m.readInBody x) x m n ↔
      m.expectedBodySize.2 - m.body.length ≤ x.length ∧ n = m.expectedBodySize.2 - m.body.length := by
  have hread := readInBody_of_known (x := x) hd.state hk (hd.known hk)
  constructor
  · rintro ⟨⟨d, hresult, -⟩, hn⟩
    rw [hread] at hresult
    obtain ⟨hmin, hm'⟩ := Prod.mk.inj (Except.ok.inj hresult)
    have hstate := congrArg HTTPMessage.state hm'
    split at hstate
    · next hle => exact ⟨hle, by rw [← hmin, Nat.min_eq_left hle]⟩
    · cases hstate
  · rintro ⟨hle, rfl⟩
    refine ⟨⟨m.derived, ?_, rfl⟩, hle⟩
    rw [hread, Nat.min_eq_left hle, if_pos hle]

/-- **The outcomes of a read.** -/
theorem readInBody_cases (hd : m.Due) (x : Bytes) :
    (∃ e, m.readInBody x = .error e ∧ e.Foreign) ∨
      (∃ m', GoesOn (m.readInBody x) x m m' ∧ m'.Due) ∨ ∃ n, Ends (m.readInBody x) x m n := by
  cases hk : m.expectedBodySize.1 with
  | true =>
      by_cases hle : m.expectedBodySize.2 - m.body.length ≤ x.length
      · exact .inr (.inr ⟨_, (ends_known_iff hd hk).mpr ⟨hle, rfl⟩⟩)
      · refine .inr (.inl ⟨_, (goesOn_known_iff hd hk).mpr ⟨Nat.lt_of_not_le hle, rfl⟩,
          hd.state, ?_, ?_, hd.plain⟩)
        · intro _
          have := hd.known hk
          simp only [List.length_append]
          omega
        · intro hu
          rw [show m.expectedBodySize.1 = false from hu] at hk
          cases hk
  | false =>
      rw [readInBody_of_unknown hd.state hk]
      rcases HTTPBodyLaws.read_cases x (hd.unknown hk) hd.state with he | ⟨m', hgo, hset⟩ | hends
      · exact .inl he
      · have hk' : m'.expectedBodySize.1 ≠ true := by
          rw [hgo.rest, hk]
          exact Bool.false_ne_true
        refine .inr (.inl ⟨m', hgo, ?_, fun h => absurd h hk', fun _ => hset, fun h => absurd h hk'⟩)
        rw [hgo.rest]
        exact hd.state
      · exact .inr (.inr hends)

theorem GoesOn.due (hd : m.Due) (h : GoesOn (m.readInBody x) x m m') : m'.Due := by
  rcases readInBody_cases hd x with ⟨e, he, -⟩ | ⟨m₁, hgo, hdue⟩ | ⟨n, ⟨d, hresult, -⟩, -⟩
  · rw [h.result] at he
    cases he
  · have := h.result.symm.trans hgo.result
    rw [(Prod.mk.inj (Except.ok.inj this)).2]
    exact hdue
  · -- a message that goes on is not complete
    have := h.result.symm.trans hresult
    have hstate := congrArg HTTPMessage.state (Prod.mk.inj (Except.ok.inj this)).2
    rw [h.rest, hd.state] at hstate
    cases hstate

theorem Ends.size (hd : m.Due) (hk : m.expectedBodySize.1 = true)
    (h : Ends (m.readInBody x) x m n) : (m.body ++ x.take n).length = m.expectedBodySize.2 := by
  obtain ⟨hle, rfl⟩ := (ends_known_iff hd hk).mp h
  have := hd.known hk
  rw [List.length_append, List.length_take]
  omega

/-! ### Cutting the bytes -/

theorem readInBody_append_error (hd : m.Due) (hs : m.SmallReads (x ++ y))
    (h : m.readInBody x = .error e) : m.readInBody (x ++ y) = .error e := by
  cases hk : m.expectedBodySize.1 with
  | true =>
      rw [readInBody_of_known hd.state hk (hd.known hk)] at h
      cases h
  | false =>
      rw [readInBody_of_unknown hd.state hk] at h ⊢
      exact HTTPBodyLaws.append_error (hd.unknown hk) hd.state (hs hk) h

theorem Ends.append (hd : m.Due) (hs : m.SmallReads (x ++ y))
    (h : Ends (m.readInBody x) x m n) : Ends (m.readInBody (x ++ y)) (x ++ y) m n := by
  cases hk : m.expectedBodySize.1 with
  | true =>
      obtain ⟨hle, rfl⟩ := (ends_known_iff hd hk).mp h
      refine (ends_known_iff hd hk).mpr ⟨?_, rfl⟩
      rw [List.length_append]
      omega
  | false =>
      rw [readInBody_of_unknown hd.state hk] at h ⊢
      exact HTTPBodyLaws.append_ends (hd.unknown hk) hd.state (hs hk) h

theorem Ends.take (hd : m.Due) (hs : m.SmallReads x) (h : Ends (m.readInBody x) x m n) :
    Ends (m.readInBody (x.take n)) (x.take n) m n := by
  cases hk : m.expectedBodySize.1 with
  | true =>
      obtain ⟨hle, rfl⟩ := (ends_known_iff hd hk).mp h
      refine (ends_known_iff hd hk).mpr ⟨?_, rfl⟩
      rw [List.length_take]
      omega
  | false =>
      rw [readInBody_of_unknown hd.state hk] at h ⊢
      exact HTTPBodyLaws.take_ends (hd.unknown hk) hd.state (hs hk) h

theorem SmallReads.left (h : m.SmallReads (x ++ y)) : m.SmallReads x :=
  fun hu => HTTPBodyLaws.small_left (h hu)

theorem SmallReads.append (hd : m.Due) (hx : m.SmallReads x)
    (h : GoesOn (m.readInBody x) x m m₁) (hy : m₁.SmallReads y) : m.SmallReads (x ++ y) := by
  intro hu
  have hu₁ : m₁.expectedBodySize.1 = false := by
    rw [h.rest]
    exact hu
  rw [readInBody_of_unknown hd.state hu] at h
  exact HTTPBodyLaws.small_append (hd.unknown hu) hd.state h (hx hu) (hy hu₁)

theorem SmallReads.extend (hd : m.Due) (hx : m.SmallReads x) (h : Ends (m.readInBody x) x m n) :
    m.SmallReads (x ++ y) := by
  intro hu
  rw [readInBody_of_unknown hd.state hu] at h
  exact HTTPBodyLaws.small_extend (hd.unknown hu) hd.state h (hx hu)

/-- Reading `x` and then `y` is reading `x ++ y`, where `x` does not complete
the message. -/
theorem GoesOn.append (hd : m.Due) (hs : m.SmallReads (x ++ y))
    (h : GoesOn (m.readInBody x) x m m₁) :
    m₁.SmallReads y ∧
      (∀ e, m₁.readInBody y = .error e → m.readInBody (x ++ y) = .error e) ∧
      (∀ m₂, GoesOn (m₁.readInBody y) y m₁ m₂ → GoesOn (m.readInBody (x ++ y)) (x ++ y) m m₂) ∧
      ∀ n, Ends (m₁.readInBody y) y m₁ n →
        Ends (m.readInBody (x ++ y)) (x ++ y) m (x.length + n) := by
  have hd₁ := h.due hd
  cases hk : m.expectedBodySize.1 with
  | true =>
      obtain ⟨hlt, rfl⟩ := (goesOn_known_iff hd hk).mp h
      have hk₁ : ({ m with body := m.body ++ x } : HTTPMessage X).expectedBodySize.1 = true := hk
      have hlen : m.expectedBodySize.2 - (m.body ++ x).length
          = m.expectedBodySize.2 - m.body.length - x.length := by
        rw [List.length_append]
        omega
      refine ⟨fun hu => ?_, fun e he => ?_, fun m₂ h₂ => ?_, fun n hn => ?_⟩
      · rw [hk₁] at hu
        cases hu
      · rw [readInBody_of_known hd₁.state hk₁ (hd₁.known hk₁)] at he
        cases he
      · obtain ⟨hlt₂, rfl⟩ := (goesOn_known_iff hd₁ hk₁).mp h₂
        replace hlt₂ : y.length < m.expectedBodySize.2 - (m.body ++ x).length := hlt₂
        rw [hlen] at hlt₂
        refine (goesOn_known_iff hd hk).mpr ⟨?_, by simp⟩
        rw [List.length_append]
        omega
      · obtain ⟨hle, rfl⟩ := (ends_known_iff hd₁ hk₁).mp hn
        replace hle : m.expectedBodySize.2 - (m.body ++ x).length ≤ y.length := hle
        rw [hlen] at hle
        refine (ends_known_iff hd hk).mpr ⟨?_, ?_⟩
        · rw [List.length_append]
          omega
        · show x.length + (m.expectedBodySize.2 - (m.body ++ x).length) = _
          rw [hlen]
          omega
  | false =>
      have hk₁ : m₁.expectedBodySize.1 = false := by
        rw [h.rest]
        exact hk
      rw [readInBody_of_unknown hd.state hk] at h
      have hlaw := HTTPBodyLaws.append_goesOn (hd.unknown hk) hd.state (hs hk) h
      rw [readInBody_of_unknown hd.state hk, readInBody_of_unknown hd₁.state hk₁]
      exact ⟨fun _ => hlaw.1, hlaw.2⟩

end

end HTTPMessage

/-! ## The subclasses -/

section

variable {X : Type} {m m' : HTTPMessage X}

theorem HTTPMessage.setExpectedBodySize_eq_ok {isKnown : Bool} {value : Nat} :
    m.setExpectedBodySize isKnown value = .ok m' ↔
      m.state = .bodyPending ∧ m' = { m with expectedBodySize := (isKnown, value) } := by
  simp only [setExpectedBodySize, bind_eq_ok, assertThat_eq_ok, beq_iff_eq, pure_eq_ok,
    Except.ok.injEq, exists_const, @eq_comm _ _ m']

theorem HTTPMessage.failsForeign_setExpectedBodySize {isKnown : Bool} {value : Nat}
    (hstate : m.state = .bodyPending) : FailsForeign (m.setExpectedBodySize isKnown value) := by
  rw [setExpectedBodySize_eq_ok.mpr ⟨hstate, rfl⟩]
  exact .ok _

theorem HTTPMessage.failsForeign_getHeaderValue (headerName : Bytes) (m : HTTPMessage X) :
    FailsForeign (m.getHeaderValue headerName) := by
  unfold getHeaderValue
  split
  · exact .ok _
  · exact .error (foreign_of_not_assertion (by simp) (by simp))

end

/-! ### Requests -/

theorem HTTPRequest.calculateExpectedBodySize_ok {m m' : HTTPRequest}
    (h : m.calculateExpectedBodySize = .ok m') :
    m.state = .bodyPending ∧ ∃ n, m' = { m with expectedBodySize := (true, n) } := by
  simp only [calculateExpectedBodySize, bind_eq_ok, assertThat_eq_ok, beq_iff_eq] at h
  obtain ⟨_, hstate, h⟩ := h
  refine ⟨hstate, ?_⟩
  split at h
  · exact ⟨_, (HTTPMessage.setExpectedBodySize_eq_ok.mp h).2⟩
  · split at h
    · split at h
      · cases h
      · simp only [bind_eq_ok] at h
        obtain ⟨value, -, size, -, h⟩ := h
        exact ⟨_, (HTTPMessage.setExpectedBodySize_eq_ok.mp h).2⟩
    · cases h

theorem HTTPRequest.failsForeign_calculateExpectedBodySize {m : HTTPRequest}
    (hstate : m.state = .bodyPending) : FailsForeign m.calculateExpectedBodySize := by
  unfold calculateExpectedBodySize
  refine .bind (.assertThat (by simp [hstate])) fun _ _ => ?_
  split
  · exact HTTPMessage.failsForeign_setExpectedBodySize hstate
  · split
    · split
      · exact .error (foreign_of_not_assertion (by simp) (by simp))
      · exact (HTTPMessage.failsForeign_getHeaderValue _ _).bind fun _ _ =>
          (failsForeign_myatoi _ _).bind fun _ _ =>
            HTTPMessage.failsForeign_setExpectedBodySize hstate
    · exact .error (foreign_of_not_assertion (by simp) (by simp))

/-- A request never waits for a body of unknown length. -/
instance : HTTPBodyLaws RequestPart where
  forget := id
  Plain _ := True
  Settled _ := False
  SmallSizes _ _ := True
  plain_initial := trivial
  calculate_ok h := by
    obtain ⟨-, n, rfl⟩ := HTTPRequest.calculateExpectedBodySize_ok h
    exact ⟨rfl, rfl, by simp, fun _ => rfl⟩
  calculate_error hstate := HTTPRequest.failsForeign_calculateExpectedBodySize hstate
  eofInBody_error := .error (foreign_of_not_assertion (by simp) (by simp))
  eofInBody_plain _ := by simp [HTTPMessageType.eofInBody]
  eofInBody_ok := by simp [HTTPMessageType.eofInBody]
  read_cases _ h := h.elim
  append_error h := h.elim
  append_ends h := h.elim
  append_goesOn h := h.elim
  small_left := id
  small_append h := h.elim
  small_extend h := h.elim
  take_ends h := h.elim

/-! ### Responses -/

namespace ChunkedBodyParser

theorem failsForeign_getChunkSize (chunkHdr : Bytes) : FailsForeign (getChunkSize chunkHdr) := by
  unfold getChunkSize
  refine (failsForeign_substr _ _ _).bind fun _ _ => .bind (.assertThat ?_) fun _ _ => ?_
  · intro _
    decide
  · split
    · exact .error ⟨by simp, by decide⟩
    · exact (failsForeign_substr _ _ _).bind fun _ _ =>
        (failsForeign_myatoi _ _).bind fun _ _ => .ok _

theorem failsForeign_read {p : ChunkedBodyParser} (x : Bytes) (hq : p.Quiet) :
    FailsForeign (p.read x) := by
  intro e he
  have hexits := read_exits x p
  rw [he] at hexits
  obtain ⟨t, hvisits, hlast⟩ := last_turn hexits
  rcases hlast with ⟨-, ho⟩ | ⟨e', hm, ho⟩ | ⟨loc, hl, ho⟩
  · cases ho
  · cases ho
    cases hm with
    | header _ _ hsize => exact failsForeign_getChunkSize _ e hsize
    | outOfRange _ _ _ hsub => exact failsForeign_substr _ _ _ e hsub
    | ending => exact ⟨by simp, by decide⟩
  · rw [if_pos (hq.ahead hvisits hl)] at ho
    cases ho

end ChunkedBodyParser

namespace BodyParser

theorem failsForeign_read {b : BodyParser} (x : Bytes) (hq : b.Quiet) : FailsForeign (b.read x) := by
  cases b with
  | rule5 => exact .ok _
  | chunked p =>
      intro e he
      exact ChunkedBodyParser.failsForeign_read x hq e (read_chunked_error he)

end BodyParser

namespace HTTPResponse

variable {m m' : HTTPResponse} {b b' : BodyParser} {x : Bytes}

theorem readInComplexBody_eq (hstate : m.state = .bodyPending) (hb : m.derived.bodyParser = some b) :
    m.readInComplexBody x = (b.read x).map fun r =>
      match r.1 with
      | none => (x.length, { m with
          body := m.body ++ x
          derived := { m.derived with bodyParser := some r.2 } })
      | some n => (n, { m with
          body := m.body ++ x.take n
          state := .complete
          derived := { m.derived with bodyParser := some r.2 } }) := by
  simp only [readInComplexBody, hstate, hb, beq_self_eq_true, assertThat_true, ok_bind]
  cases b.read x with
  | error e => rfl
  | ok r =>
      obtain ⟨o, b'⟩ := r
      cases o <;> rfl

theorem isChunked_foreign (m : HTTPResponse) : FailsForeign m.isChunked := by
  unfold isChunked
  split
  · refine (HTTPMessage.failsForeign_getHeaderValue _ _).bind fun _ _ =>
      (failsForeign_split _ _).bind fun _ _ => ?_
    split
    · exact .error (foreign_of_not_assertion (by simp) (by simp))
    · exact .ok _
  · exact .ok _

theorem isMultipart_foreign (m : HTTPResponse) : FailsForeign m.isMultipart := by
  have hinvalid : (Fault.runtimeError "MIMEType: invalid MIME media-type string").Foreign :=
    foreign_of_not_assertion (by simp) (by simp)
  unfold isMultipart
  split
  · refine (HTTPMessage.failsForeign_getHeaderValue _ _).bind fun _ _ => .bind ?_ fun _ _ => .ok _
    refine (failsForeign_split _ _).bind fun _ _ => ?_
    split
    · exact .error hinvalid
    · split
      · exact .error hinvalid
      · exact .ok _
  · exact .ok _

theorem statusCode_foreign (m : HTTPResponse) : FailsForeign m.statusCode := by
  unfold statusCode
  refine .bind (.assertThat ?_) fun _ _ => (failsForeign_split _ _).bind fun _ _ => ?_
  · intro _
    decide
  · split
    · exact .error (foreign_of_not_assertion (by simp) (by simp))
    · split
      · exact .error (e := .outOfRange) (foreign_of_not_assertion (by simp) (by simp))
      · exact .ok _

theorem hasNoBody_foreign (m : HTTPResponse) : FailsForeign m.hasNoBody := by
  unfold hasNoBody
  refine (statusCode_foreign m).bind fun code _ => .bind ?_ fun _ _ => ?_
  · unfold byteAtIndex
    split
    · exact .error (foreign_of_not_assertion (by simp) (by simp))
    · exact .ok _
  · split
    · exact .ok _
    · refine .bind (.assertThat ?_) fun _ _ => .ok _
      intro _
      decide

theorem failsForeign_calculateExpectedBodySize (hstate : m.state = .bodyPending) :
    FailsForeign m.calculateExpectedBodySize := by
  unfold calculateExpectedBodySize
  refine .bind (.assertThat (by simp [hstate])) fun _ _ => (hasNoBody_foreign m).bind fun _ _ => ?_
  split
  · exact HTTPMessage.failsForeign_setExpectedBodySize hstate
  · refine (isChunked_foreign m).bind fun _ _ => ?_
    split
    · exact (HTTPMessage.failsForeign_setExpectedBodySize hstate).bind fun _ _ => .ok _
    · split
      · exact (HTTPMessage.failsForeign_getHeaderValue _ _).bind fun _ _ =>
          (failsForeign_myatoi _ _).bind fun _ _ =>
            HTTPMessage.failsForeign_setExpectedBodySize hstate
      · refine (isMultipart_foreign m).bind fun _ _ => ?_
        split
        · exact (HTTPMessage.failsForeign_setExpectedBodySize hstate).bind fun _ _ =>
            .error (e := .runtimeError
              "HTTPResponse: unsupported multipart/byteranges without Content-Length")
              (foreign_of_not_assertion (by simp) (by simp))
        · exact (HTTPMessage.failsForeign_setExpectedBodySize hstate).bind fun _ _ => .ok _

/-- What `calculate_expected_body_size` changes: the framing. -/
theorem calculateExpectedBodySize_ok (h : m.calculateExpectedBodySize = .ok m') :
    (∃ n, m' = { m with expectedBodySize := (true, n) }) ∨
      ∃ b : BodyParser, b.Quiet ∧ m' = { m with
        expectedBodySize := (false, npos)
        derived := { m.derived with bodyParser := some b } } := by
  simp only [calculateExpectedBodySize, bind_eq_ok, assertThat_eq_ok, beq_iff_eq] at h
  obtain ⟨_, hstate, noBody, -, h⟩ := h
  split at h
  · exact .inl ⟨_, (HTTPMessage.setExpectedBodySize_eq_ok.mp h).2⟩
  · obtain ⟨chunked, -, h⟩ := bind_eq_ok.mp h
    split at h
    · obtain ⟨m₁, hset, h⟩ := bind_eq_ok.mp h
      obtain ⟨-, rfl⟩ := HTTPMessage.setExpectedBodySize_eq_ok.mp hset
      cases h
      exact .inr ⟨.chunked _, ChunkedBodyParser.quiet_initial _, rfl⟩
    · split at h
      · simp only [bind_eq_ok] at h
        obtain ⟨value, -, size, -, h⟩ := h
        exact .inl ⟨_, (HTTPMessage.setExpectedBodySize_eq_ok.mp h).2⟩
      · obtain ⟨multipart, -, h⟩ := bind_eq_ok.mp h
        split at h
        · obtain ⟨m₁, -, h⟩ := bind_eq_ok.mp h
          cases h
        · obtain ⟨m₁, hset, h⟩ := bind_eq_ok.mp h
          obtain ⟨-, rfl⟩ := HTTPMessage.setExpectedBodySize_eq_ok.mp hset
          cases h
          exact .inr ⟨.rule5, trivial, rfl⟩

/-- The members of a response that matter when it is complete. -/
def forgetParser (d : ResponsePart) : ResponsePart := { d with bodyParser := none }

/-- Between two reads a body of unknown length has a quiet parser. -/
def HasParser (m : HTTPResponse) : Prop := ∃ b, m.derived.bodyParser = some b ∧ b.Quiet

/-- Every chunk size that comes up in a read leaves room for the ending of
the chunk. -/
def SmallChunks (x : Bytes) (m : HTTPResponse) : Prop :=
  ∀ b, m.derived.bodyParser = some b → b.SmallSizes x

end HTTPResponse

instance : HTTPBodyView ResponsePart where
  forget := HTTPResponse.forgetParser
  Plain d := d.bodyParser = none
  Settled := HTTPResponse.HasParser
  SmallSizes := HTTPResponse.SmallChunks

namespace HTTPResponse

variable {m m' : HTTPResponse} {b b' : BodyParser} {x : Bytes}

theorem readInComplexBody_error (hstate : m.state = .bodyPending)
    (hb : m.derived.bodyParser = some b) {e : Fault} :
    m.readInComplexBody x = .error e ↔ b.read x = .error e := by
  rw [readInComplexBody_eq hstate hb]
  cases b.read x <;> simp [Except.map]

theorem goesOn_iff (hstate : m.state = .bodyPending) (hb : m.derived.bodyParser = some b) :
    HTTPMessage.GoesOn (m.readInComplexBody x) x m m' ↔
      ∃ b', b.read x = .ok (none, b') ∧ m' = { m with
        body := m.body ++ x
        derived := { m.derived with bodyParser := some b' } } := by
  have heq := readInComplexBody_eq (x := x) hstate hb
  constructor
  · rintro ⟨hresult, hrest, -⟩
    cases hread : b.read x with
    | error e =>
        rw [heq, hread] at hresult
        cases hresult
    | ok r =>
        obtain ⟨o, b'⟩ := r
        rw [heq, hread] at hresult
        cases o with
        | none => exact ⟨b', rfl, (Prod.mk.inj (Except.ok.inj hresult)).2.symm⟩
        | some n =>
            have hs := congrArg HTTPMessage.state (Prod.mk.inj (Except.ok.inj hresult)).2
            rw [hrest] at hs
            cases hs.trans hstate
  · rintro ⟨b', hread, rfl⟩
    exact ⟨by rw [heq, hread]; rfl, rfl, rfl⟩

theorem ends_iff (hstate : m.state = .bodyPending) (hb : m.derived.bodyParser = some b)
    (hq : b.Quiet) {n : Nat} :
    HTTPMessage.Ends (m.readInComplexBody x) x m n ↔ ∃ b', b.read x = .ok (some n, b') := by
  have heq := readInComplexBody_eq (x := x) hstate hb
  constructor
  · rintro ⟨⟨d, hresult, -⟩, -⟩
    cases hread : b.read x with
    | error e =>
        rw [heq, hread] at hresult
        cases hresult
    | ok r =>
        obtain ⟨o, b'⟩ := r
        rw [heq, hread] at hresult
        cases o with
        | none =>
            have hs := congrArg HTTPMessage.state (Prod.mk.inj (Except.ok.inj hresult)).2
            cases hstate.symm.trans hs
        | some k =>
            obtain rfl : k = n := (Prod.mk.inj (Except.ok.inj hresult)).1
            exact ⟨b', rfl⟩
  · rintro ⟨b', hread⟩
    refine ⟨⟨{ m.derived with bodyParser := some b' }, ?_, rfl⟩,
      (BodyParser.read_some_bounds hq hread).2⟩
    rw [heq, hread]
    rfl

end HTTPResponse

instance : HTTPBodyLaws ResponsePart where
  plain_initial := rfl
  calculate_ok h := by
    rcases HTTPResponse.calculateExpectedBodySize_ok h with ⟨n, rfl⟩ | ⟨b, hq, rfl⟩
    · exact ⟨rfl, rfl, by simp, fun _ => rfl⟩
    · exact ⟨rfl, rfl, fun _ => ⟨b, rfl, hq⟩, by simp⟩
  calculate_error hstate := HTTPResponse.failsForeign_calculateExpectedBodySize hstate
  eofInBody_error {m} := by
    show FailsForeign (HTTPResponse.eofInBody m)
    unfold HTTPResponse.eofInBody
    split
    · exact .ok _
    · exact .error (foreign_of_not_assertion (by simp) (by simp))
  eofInBody_plain {m} hplain := by
    have hnone : m.derived.bodyParser = none := hplain
    simp [HTTPMessageType.eofInBody, HTTPResponse.eofInBody, hnone]
  eofInBody_ok {m} := by
    show HTTPResponse.eofInBody m ≠ .ok false
    unfold HTTPResponse.eofInBody
    split
    · next parser _ => cases parser <;> simp [BodyParser.eof]
    · simp
  read_cases {m} x hset hstate := by
    obtain ⟨b, hb, hq⟩ := hset
    cases hread : b.read x with
    | error e =>
        exact .inl ⟨e, (HTTPResponse.readInComplexBody_error hstate hb).mpr hread,
          BodyParser.failsForeign_read x hq e hread⟩
    | ok r =>
        obtain ⟨o, b'⟩ := r
        cases o with
        | none =>
            exact .inr (.inl ⟨_, (HTTPResponse.goesOn_iff hstate hb).mpr ⟨b', hread, rfl⟩,
              b', rfl, hq.of_read hread⟩)
        | some n => exact .inr (.inr ⟨n, (HTTPResponse.ends_iff hstate hb hq).mpr ⟨b', hread⟩⟩)
  append_error {m x y e} hset hstate hsmall h := by
    obtain ⟨b, hb, hq⟩ := hset
    refine (HTTPResponse.readInComplexBody_error hstate hb).mpr ?_
    exact BodyParser.read_append_of_error hq (hsmall b hb)
      ((HTTPResponse.readInComplexBody_error hstate hb).mp h)
  append_ends {m x y n} hset hstate hsmall h := by
    obtain ⟨b, hb, hq⟩ := hset
    obtain ⟨b', hread⟩ := (HTTPResponse.ends_iff hstate hb hq).mp h
    exact (HTTPResponse.ends_iff hstate hb hq).mpr
      (BodyParser.read_append_of_some hq hread)
  append_goesOn {m m₁ x y} hset hstate hsmall h := by
    obtain ⟨b, hb, hq⟩ := hset
    obtain ⟨b₁, hread, hm₁⟩ := (HTTPResponse.goesOn_iff hstate hb).mp h
    have hstate₁ : m₁.state = .bodyPending := by
      rw [hm₁]
      exact hstate
    have hb₁ : m₁.derived.bodyParser = some b₁ := by rw [hm₁]
    have hq₁ := hq.of_read hread
    obtain ⟨herror, hnone, hsome, hsmall₁⟩ := BodyParser.read_append_of_none hq (hsmall b hb) hread
    refine ⟨fun b' hb' => ?_, fun e he => ?_, fun m₂ h₂ => ?_, fun n hn => ?_⟩
    · rw [hb₁] at hb'
      obtain rfl : b₁ = b' := Option.some.inj hb'
      exact hsmall₁
    · exact (HTTPResponse.readInComplexBody_error hstate hb).mpr
        (herror e ((HTTPResponse.readInComplexBody_error hstate₁ hb₁).mp he))
    · obtain ⟨b₂, hread₂, rfl⟩ := (HTTPResponse.goesOn_iff hstate₁ hb₁).mp h₂
      refine (HTTPResponse.goesOn_iff hstate hb).mpr ⟨b₂, hnone b₂ hread₂, ?_⟩
      simp [hm₁]
    · obtain ⟨b₂, hread₂⟩ := (HTTPResponse.ends_iff hstate₁ hb₁ hq₁).mp hn
      exact (HTTPResponse.ends_iff hstate hb hq).mpr (hsome n b₂ hread₂)
  small_left h b hb := (h b hb).left
  small_append {m m₁ x y} hset hstate h hx hy := by
    obtain ⟨b, hb, hq⟩ := hset
    obtain ⟨b₁, hread, hm₁⟩ := (HTTPResponse.goesOn_iff hstate hb).mp h
    have hb₁ : m₁.derived.bodyParser = some b₁ := by rw [hm₁]
    intro b' hb'
    obtain rfl : b = b' := Option.some.inj (hb.symm.trans hb')
    exact (hx b hb).append hq hread (hy b₁ hb₁)
  small_extend {m x y n} hset hstate h hx := by
    obtain ⟨b, hb, hq⟩ := hset
    obtain ⟨b', hread⟩ := (HTTPResponse.ends_iff hstate hb hq).mp h
    intro b₁ hb₁
    obtain rfl : b = b₁ := Option.some.inj (hb.symm.trans hb₁)
    exact (hx b hb).extend hq hread
  take_ends {m x n} hset hstate hsmall h := by
    obtain ⟨b, hb, hq⟩ := hset
    obtain ⟨b', hread⟩ := (HTTPResponse.ends_iff hstate hb hq).mp h
    exact (HTTPResponse.ends_iff hstate hb hq).mpr (BodyParser.read_take hq (hsmall b hb) hread)

end Mahimahi
