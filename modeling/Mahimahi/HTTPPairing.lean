import Mahimahi.HTTPGrammar

/-!
# Responses and their requests

A response parser takes a request off its queue for every status line, and so
for an interim response, too. The stream of a server that sends none is
parsed with every response paired with its own request
(`FinalStream.comes`); in a stream with one, the first of them becomes a
complete message wherever the stream is cut (`parseCalls_extend`), and there
are not enough requests left for the final responses
(`parseCalls_announced`).
-/

namespace Mahimahi

namespace HTTPMessageSequence

section

variable {X S : Type} [HTTPMessageType X] [HTTPMessageParser X S] [HTTPParserLaws X S]
variable {c c' d f : HTTPMessageSequence X S} {e : Fault} {x y : Bytes}

/-! ## Messages that are complete stay -/

theorem Goes.completed (h : Goes c c') : c.completeMessages <+: c'.completeMessages := by
  cases h with
  | firstLine _ _ _ | header _ _ _ _ | blankLine _ _ _ | body _ _ _ _ => exact List.prefix_rfl
  | complete _ => exact List.prefix_append _ _

theorem Rests.completed (h : Rests c c') : c'.completeMessages = c.completeMessages := by
  cases h <;> rfl

theorem parseAll_completed (hs : c.Sound) :
    ∀ f, c.parseAll = .ok f → c.completeMessages <+: f.completeMessages := by
  refine Sound.induction
    (P := fun c => ∀ f, c.parseAll = .ok f → c.completeMessages <+: f.completeMessages)
    ?_ ?_ ?_ hs
  · intro c c' hs hrest f hf
    rw [parseAll_of_rests hs hrest] at hf
    cases hf
    rw [hrest.completed]
  · intro c e hs hfail f hf
    rw [parseAll_of_fails hs hfail] at hf
    cases hf
  · intro c c' hs hgo ih f hf
    rw [parseAll_of_goes hs hgo] at hf
    exact hgo.completed.trans (ih f hf)

theorem parseCalls_completed : ∀ {bufs : List Bytes} {c f : HTTPMessageSequence X S}, c.Sound →
    (∀ b ∈ bufs, b ≠ []) → c.parseCalls bufs = .ok f → c.completeMessages <+: f.completeMessages
  | [], _, _, _, _, hf => by
      cases hf
      exact List.prefix_rfl
  | buf :: bufs, c, f, hs, hne, hf => by
      obtain ⟨c₁, hc₁, hf⟩ := bind_eq_ok.mp hf
      rw [parse_of_ne_nil (hne buf (by simp))] at hc₁
      have hord := parseAll_orderly (hs.feed buf)
      rw [hc₁] at hord
      have hfirst : c.completeMessages <+: c₁.completeMessages :=
        parseAll_completed (hs.feed buf) c₁ hc₁
      exact hfirst.trans (parseCalls_completed hord.1 (fun b hb => hne b (by simp [hb])) hf)

/-! ## The beginning of a stream -/

theorem Goes.smallReads (hs : c.Sound) (hsmall : SmallRun c) (hgo : Goes c c')
    (hstate : c.messageInProgress.state = .bodyPending) :
    c.messageInProgress.SmallReads (c.buffer ++ y) := by
  cases hgo with
  | body _ hends _ _ => exact (hsmall.now hstate).extend (hs.due hstate) hends
  | firstLine hs' _ _ | header hs' _ _ _ | blankLine hs' _ _ | complete hs' =>
      rw [hstate] at hs'
      cases hs'

theorem Goes.extend (hs : c.Sound) (hsmall : SmallRun c) (hgo : Goes c c') :
    ∃ d, Goes (c.feed y) d ∧ Alike (c'.feed y) d :=
  hgo.feed hs (hgo.smallReads hs hsmall)

/-- What is complete after the beginning of the bytes is complete after all
of them, up to what is left of body parsers. -/
theorem parseAll_extend (hs : c.Sound) (hsmall : SmallRun c) (h : c.parseAll = .ok d)
    (hf : (c.feed y).parseAll = .ok f) :
    d.completeMessages.map HTTPMessage.erase <+: f.completeMessages.map HTTPMessage.erase := by
  refine Sound.induction (P := fun c => SmallRun c → ∀ d f, c.parseAll = .ok d →
    (c.feed y).parseAll = .ok f →
    d.completeMessages.map HTTPMessage.erase <+: f.completeMessages.map HTTPMessage.erase)
    ?_ ?_ ?_ hs hsmall d f h hf
  · intro c c' hs hrest _ d f hd hf
    rw [parseAll_of_rests hs hrest] at hd
    cases hd
    rw [hrest.completed]
    exact (parseAll_completed (hs.feed y) f hf).map _
  · intro c e hs hfail _ d f hd _
    rw [parseAll_of_fails hs hfail] at hd
    cases hd
  · intro c c' hs hgo ih hsmall d f hd hf
    obtain ⟨c₁, hgo₁, halike⟩ := hgo.extend (y := y) hs hsmall
    have hs' := hgo.sound hs
    rw [parseAll_of_goes hs hgo] at hd
    rw [parseAll_of_goes (hs.feed y) hgo₁] at hf
    have hout := parseAll_alike (hs'.feed y) (hgo₁.sound (hs.feed y)) halike
    rw [hf] at hout
    cases hc' : (c'.feed y).parseAll with
    | error err =>
        rw [hc'] at hout
        exact hout.elim
    | ok f' =>
        rw [hc'] at hout
        have := ih (hsmall.goes hgo) d f' hd hc'
        rwa [← show f.completeMessages.map HTTPMessage.erase = f'.completeMessages.map _ from
          hout.complete] at this

theorem parseCalls_extend : ∀ {bufs : List Bytes} {x : Bytes} {c d f : HTTPMessageSequence X S},
    c.Sound → (∀ b ∈ bufs, b ≠ []) → x ≠ [] → x ++ y = bufs.flatten → SmallRun (c.feed x) →
    (c.feed x).parseAll = .ok d → c.parseCalls bufs = .ok f →
    d.completeMessages.map HTTPMessage.erase <+: f.completeMessages.map HTTPMessage.erase
  | [], x, c, d, f, hs, hne, hx, hcut, hsmall, hd, hf => by
      exact absurd (List.append_eq_nil_iff.mp hcut).1 hx
  | buf :: bufs, x, c, d, f, hs, hne, hx, hcut, hsmall, hd, hf => by
      obtain ⟨c₁, hc₁, hrun⟩ := bind_eq_ok.mp hf
      rw [parse_of_ne_nil (hne buf (by simp))] at hc₁
      have hord := parseAll_orderly (hs.feed buf)
      rw [hc₁] at hord
      have hne' : ∀ b ∈ bufs, b ≠ [] := fun b hb => hne b (by simp [hb])
      rw [List.flatten_cons] at hcut
      rcases List.append_eq_append_iff.mp hcut with ⟨z, rfl, -⟩ | ⟨z, rfl, hz⟩
      · -- the buffer reaches beyond the beginning
        have hfeed : c.feed (x ++ z) = (c.feed x).feed z := by
          simp [HTTPMessageSequence.feed]
        rw [hfeed] at hc₁
        have hfirst := parseAll_extend (hs.feed x) hsmall hd hc₁
        exact hfirst.trans ((parseCalls_completed hord.1 hne' hrun).map _)
      · by_cases hz' : z = []
        · subst hz'
          rw [List.append_nil] at hd
          rw [hd] at hc₁
          cases hc₁
          exact (parseCalls_completed hord.1 hne' hrun).map _
        · have hfeed : c.feed (buf ++ z) = (c.feed buf).feed z := by
            simp [HTTPMessageSequence.feed]
          rw [hfeed] at hsmall hd
          have hmeet := parseAll_feed (hs.feed buf) hsmall
          rw [hc₁] at hmeet
          obtain ⟨hsmall₁, hout⟩ := hmeet
          rw [hd] at hout
          cases hd₁ : (c₁.feed z).parseAll with
          | error err =>
              rw [hd₁] at hout
              exact hout.elim
          | ok d₁ =>
              rw [hd₁] at hout
              have := parseCalls_extend hord.1 hne' hz' hz.symm hsmall₁ hd₁ hrun
              rwa [← show d.completeMessages.map HTTPMessage.erase
                = d₁.completeMessages.map _ from hout.complete] at this

theorem SmallRun.of_rests (hs : c.Sound) (hrest : Rests c c')
    (hnow : c.messageInProgress.state = .bodyPending → c.messageInProgress.SmallReads c.buffer) :
    SmallRun c := by
  refine SmallRun.of_goes hs hnow fun d hgo => ?_
  rw [← parseTurn_again hs, parseTurn_of_rests hrest] at hgo
  cases hgo

theorem rests_of_nil (hbuffer : d.buffer = []) (hm : d.messageInProgress = HTTPMessage.initial) :
    Rests d d :=
  .line (.inl (by rw [hm]; rfl)) (by rw [hbuffer]; rfl)

theorem Comes.ends (h : Comes c d) (hbuffer : d.buffer = [])
    (hm : d.messageInProgress = HTTPMessage.initial) : c.parseAll = .ok d ∧ SmallRun c := by
  have hrest := rests_of_nil hbuffer hm
  exact ⟨h.parseAll.trans (parseAll_of_rests h.sound hrest),
    h.small (.of_rests h.sound hrest (by simp [hm, HTTPMessage.initial]))⟩

end

end HTTPMessageSequence

/-! ## Requests are used up -/

namespace HTTPResponseParser

open HTTPMessageSequence

variable {c c' f : HTTPResponseParser}

/-- The requests that have been announced so far. -/
def announced (c : HTTPResponseParser) : Nat :=
  c.completeMessages.length + (if c.messageInProgress.state = .firstLinePending then 0 else 1)
    + c.derived.length

theorem announced_goes (h : Goes c c') : announced c' = announced c := by
  cases h with
  | @firstLine m s line rest hstate _ hinit =>
      cases hderived : c.derived with
      | nil =>
          rw [hderived] at hinit
          cases hinit
      | cons request requests =>
          rw [hderived] at hinit
          obtain ⟨m', -, hm⟩ := bind_eq_ok.mp hinit
          cases hm
          simp only [announced, hstate, hderived, List.length_cons, if_true, reduceCtorEq, if_false]
          omega
  | header hstate _ _ _ => simp [announced, hstate]
  | blankLine hstate _ hcalc =>
      have hm := congrArg HTTPMessage.state (HTTPBodyLaws.calculate_ok hcalc).1
      simp only [announced, hstate, hm, reduceCtorEq, if_false]
  | body hstate _ _ _ => simp [announced, hstate]
  | complete hstate =>
      simp only [announced, hstate, HTTPMessage.initial, List.length_append, List.length_singleton,
        if_true, reduceCtorEq, if_false]

theorem announced_rests (h : Rests c c') : announced c' = announced c := by
  cases h with
  | line _ _ => rfl
  | body hstate hgo =>
      have hm := congrArg HTTPMessage.state hgo.rest
      simp only [announced, hm]

theorem parseAll_announced (hs : c.Sound) :
    ∀ f, c.parseAll = .ok f → announced f = announced c := by
  refine Sound.induction (P := fun c => ∀ f, c.parseAll = .ok f → announced f = announced c)
    ?_ ?_ ?_ hs
  · intro c c' hs hrest f hf
    rw [parseAll_of_rests hs hrest] at hf
    cases hf
    exact announced_rests hrest
  · intro c e hs hfail f hf
    rw [parseAll_of_fails hs hfail] at hf
    cases hf
  · intro c c' hs hgo ih f hf
    rw [parseAll_of_goes hs hgo] at hf
    exact (ih f hf).trans (announced_goes hgo)

theorem parseCalls_announced : ∀ {bufs : List Bytes} {c f : HTTPResponseParser}, c.Sound →
    (∀ b ∈ bufs, b ≠ []) → c.parseCalls bufs = .ok f → announced f = announced c
  | [], _, _, _, _, hf => by
      cases hf
      rfl
  | buf :: bufs, c, f, hs, hne, hf => by
      obtain ⟨c₁, hc₁, hf⟩ := bind_eq_ok.mp hf
      rw [parse_of_ne_nil (hne buf (by simp))] at hc₁
      have hord := parseAll_orderly (hs.feed buf)
      rw [hc₁] at hord
      have hfirst : announced c₁ = announced c := parseAll_announced (hs.feed buf) c₁ hc₁
      exact (parseCalls_announced hord.1 (fun b hb => hne b (by simp [hb])) hf).trans hfirst

end HTTPResponseParser

/-! ## Streams of responses -/

/-- A message whose status is not 1xx. -/
def HTTPResponse.isFinal (m : HTTPResponse) : Bool :=
  match m.statusCode with
  | .ok code => code.head? != some 49
  | .error _ => true

/-- What a server sends for the requests: for each of them interim responses
and a final one. The interim responses are counted and the sizes of the chunks
are listed. -/
inductive ServerStream : List HTTPRequest → Nat → List Nat → Bytes → Prop where
  | nil : ServerStream [] 0 [] []
  | interim {request requests n sizes line code headers s t} :
      HTTPResponse.IsInterim line code headers s →
      ServerStream (request :: requests) n sizes t →
      ServerStream (request :: requests) (n + 1) sizes (s ++ t)
  | final {request requests n sizes line code headers chunks body s t} :
      HTTPResponse.IsFinal request line code headers chunks body s →
      ServerStream requests n sizes t →
      ServerStream (request :: requests) n (chunks ++ sizes) (s ++ t)

namespace HTTPResponseParser

open HTTPMessageSequence HTTPResponse

variable {c d f : HTTPResponseParser} {request : HTTPRequest} {requests : List HTTPRequest}
  {line code body s rest : Bytes} {headers : List HTTPHeader} {sizes : List Nat} {n : Nat}

/-- The `i`-th complete message that is final has the `i`-th request. -/
def Paired (requests : List HTTPRequest) :
    Except (ParseFault ResponsePart) HTTPResponseParser → Prop
  | .ok c => requests <+: (c.completeMessages.filter isFinal).map HTTPResponse.request
  | .error _ => False

instance (requests : List HTTPRequest) : ∀ o, Decidable (Paired requests o)
  | .ok c => inferInstanceAs (Decidable (requests <+: (c.completeMessages.filter isFinal).map _))
  | .error _ => inferInstanceAs (Decidable False)

theorem isFinal_of_status {m : HTTPResponse} (hm : IsResponse request line headers body m)
    (hstatus : IsStatusLine line code) : m.isFinal = (code.head? != some 49) := by
  rw [HTTPResponse.isFinal, statusCode_eq (hm.firstLine ▸ hstatus) (by simp [hm.state])]

/-- A final response at the beginning of the buffer. -/
theorem comes_final (hs : c.Sound) (hm : c.messageInProgress = HTTPMessage.initial)
    (hrequests : c.derived = request :: requests)
    (hfinal : IsFinal request line code headers sizes body s)
    (hsizes : ∀ size ∈ sizes, size + 2 < 2 ^ 32) (hbuffer : c.buffer = s ++ rest) :
    ∃ m : HTTPResponse, m.request = request ∧ m.isFinal = true ∧ Comes c { c with
      buffer := rest
      completeMessages := c.completeMessages ++ [m]
      messageInProgress := HTTPMessage.initial
      derived := requests } := by
  obtain ⟨lines, hlines, rfl⟩ := hfinal.bytes
  have htakes := hfinal.framed.takes hfinal.status hfinal.final hsizes rest
  obtain ⟨m, hresponse, hcomes⟩ := comes_response hs hm hrequests hfinal.status.noCrlf hlines
    (by rw [hbuffer]; simp only [List.append_assoc]) htakes
  refine ⟨m, hresponse.request, ?_, hcomes⟩
  rw [isFinal_of_status hresponse hfinal.status]
  simpa using hfinal.final

/-- An interim response takes a request as well. -/
theorem comes_interim (rest : Bytes) (hs : c.Sound) (hm : c.messageInProgress = HTTPMessage.initial)
    (hrequests : c.derived = request :: requests) (hinterim : IsInterim line code headers s)
    (hbuffer : c.buffer = s ++ rest) :
    ∃ m : HTTPResponse, m.isFinal = false ∧ Comes c { c with
      buffer := rest
      completeMessages := c.completeMessages ++ [m]
      messageInProgress := HTTPMessage.initial
      derived := requests } := by
  obtain ⟨lines, hlines, rfl⟩ := hinterim.bytes
  have htakes := interim_takes request headers hinterim.status
    hinterim.interim rest
  obtain ⟨m, hresponse, hcomes⟩ := comes_response hs hm hrequests hinterim.status.noCrlf hlines
    (by rw [hbuffer]; simp only [List.append_assoc]) htakes
  refine ⟨m, ?_, hcomes⟩
  rw [isFinal_of_status hresponse hinterim.status]
  simpa using hinterim.interim

/-- A response has at least the end of its first line. -/
theorem eq_nil_of_stream (h : ServerStream requests n sizes []) : requests = [] := by
  generalize hs : ([] : Bytes) = s at h
  cases h with
  | nil => rfl
  | interim hinterim _ =>
      obtain ⟨lines, -, rfl⟩ := hinterim.bytes
      simp [crlf, ascii] at hs
  | final hfinal _ =>
      obtain ⟨lines, -, rfl⟩ := hfinal.bytes
      simp [crlf, ascii] at hs

/-- Only final responses: every request is used for its own. -/
theorem comes_finals (hstream : ServerStream requests n sizes s) (hn : n = 0)
    (hsizes : ∀ size ∈ sizes, size + 2 < 2 ^ 32) (hs : c.Sound)
    (hm : c.messageInProgress = HTTPMessage.initial) (hrequests : c.derived = requests)
    (hbuffer : c.buffer = s) :
    ∃ (ms : List HTTPResponse) (d : HTTPResponseParser), ms.map HTTPResponse.request = requests ∧
      (∀ m ∈ ms, m.isFinal = true) ∧ Comes c d ∧ d.buffer = [] ∧
      d.messageInProgress = HTTPMessage.initial ∧
      d.completeMessages = c.completeMessages ++ ms := by
  induction hstream generalizing c with
  | nil => exact ⟨[], c, rfl, by simp, .refl hs, hbuffer, hm, by simp⟩
  | interim _ _ _ => omega
  | @final request requests n sizes line code headers chunks body s t hfinal _ ih =>
      obtain ⟨m, hrequest, hisFinal, hcomes⟩ := comes_final hs hm hrequests hfinal
        (fun size h => hsizes size (by simp [h])) hbuffer
      obtain ⟨ms, d, hms, hall, hd, hbuf, hin, hcomplete⟩ := ih hn
        (fun size h => hsizes size (by simp [h])) hcomes.sound rfl rfl rfl
      exact ⟨m :: ms, d, by simp [hrequest, hms], by simpa [hisFinal] using hall,
        hcomes.trans hd, hbuf, hin, by simp [hcomplete]⟩

/-- The stream up to the first interim response: it is complete where these
bytes end. -/
theorem comes_first_interim (hstream : ServerStream requests n sizes s) (hn : n ≠ 0)
    (hsizes : ∀ size ∈ sizes, size + 2 < 2 ^ 32) :
    ∃ x y, s = x ++ y ∧ x ≠ [] ∧ ∀ c : HTTPResponseParser, c.Sound →
      c.messageInProgress = HTTPMessage.initial → c.derived = requests → c.buffer = x →
      ∃ d : HTTPResponseParser, Comes c d ∧ d.buffer = [] ∧
        d.messageInProgress = HTTPMessage.initial ∧
        ∃ m ∈ d.completeMessages, HTTPResponse.isFinal m = false := by
  induction hstream with
  | nil => exact absurd rfl hn
  | @interim request requests n sizes line code headers s t hinterim _ _ =>
      refine ⟨s, t, rfl, ?_, fun c hs hm hrequests hbuffer => ?_⟩
      · obtain ⟨lines, -, rfl⟩ := hinterim.bytes
        simp [crlf, ascii]
      · obtain ⟨m, hisFinal, hcomes⟩ := comes_interim [] hs hm hrequests hinterim
          (by rw [hbuffer, List.append_nil])
        exact ⟨_, hcomes, rfl, rfl, m, by simp, hisFinal⟩
  | @final request requests n sizes line code headers chunks body s t hfinal _ ih =>
      obtain ⟨x, y, rfl, -, hcome⟩ := ih hn fun size h => hsizes size (by simp [h])
      refine ⟨s ++ x, y, by simp, ?_, fun c hs hm hrequests hbuffer => ?_⟩
      · obtain ⟨lines, -, rfl⟩ := hfinal.bytes
        simp [crlf, ascii]
      · obtain ⟨m, -, -, hcomes⟩ := comes_final hs hm hrequests hfinal
          (fun size h => hsizes size (by simp [h])) hbuffer
        obtain ⟨d, hd, hbuf, hin, hinterim⟩ := hcome _ hcomes.sound rfl rfl rfl
        exact ⟨d, hcomes.trans hd, hbuf, hin, hinterim⟩

/-! ## Any cut -/

theorem erase_request (m : HTTPResponse) : HTTPResponse.request m.erase = m.request := by
  unfold HTTPMessage.erase
  split <;> rfl

theorem erase_isFinal (m : HTTPResponse) : HTTPResponse.isFinal m.erase = m.isFinal := by
  unfold HTTPMessage.erase
  split <;> rfl

theorem finals_of_erase {ms ns : List HTTPResponse}
    (h : ms.map HTTPMessage.erase = ns.map HTTPMessage.erase) :
    (ms.filter HTTPResponse.isFinal).map HTTPResponse.request
      = (ns.filter HTTPResponse.isFinal).map HTTPResponse.request := by
  have hfinals (ms : List HTTPResponse) :
      ((ms.map HTTPMessage.erase).filter HTTPResponse.isFinal).map HTTPResponse.request
        = (ms.filter HTTPResponse.isFinal).map HTTPResponse.request := by
    rw [List.filter_map, List.map_map]
    have hpred : HTTPResponse.isFinal ∘ HTTPMessage.erase = HTTPResponse.isFinal :=
      funext erase_isFinal
    have hreq : HTTPResponse.request ∘ HTTPMessage.erase = HTTPResponse.request :=
      funext erase_request
    rw [hpred, hreq]
  rw [← hfinals ms, h, hfinals ns]

theorem run_announcements (calls : List Call) : ∀ (requests : List HTTPRequest)
    (c : HTTPResponseParser), run (requests.map .newRequestArrived ++ calls) c
      = run calls { c with derived := c.derived ++ requests }
  | [], c => by simp
  | request :: requests, c => by
      rw [List.map_cons, List.cons_append, run, run_announcements calls requests]
      simp [newRequestArrived]

theorem run_bufs : ∀ (bufs : List Bytes) (c : HTTPResponseParser),
    run (bufs.map .parse) c = c.parseCalls bufs
  | [], _ => rfl
  | buf :: bufs, c => by
      rw [List.map_cons, run, parseCalls]
      simp only [run_bufs]

theorem paired_of_finals {bufs : List Bytes} (hstream : ServerStream requests 0 sizes s)
    (hsizes : ∀ size ∈ sizes, size + 2 < 2 ^ 32) (hne : ∀ buf ∈ bufs, buf ≠ [])
    (hcut : bufs.flatten = s) :
    Paired requests (HTTPMessageSequence.parseCalls bufs (initial requests)) := by
  have hs : (initial requests : HTTPResponseParser).Sound := sound_initial requests
  cases bufs with
  | nil =>
      cases hcut
      rw [eq_nil_of_stream hstream]
      exact List.nil_prefix
  | cons buf bufs =>
      obtain ⟨ms, d, hms, hfinal, hcomes, hbuffer, hm, hcomplete⟩ :=
        comes_finals (c := (initial requests : HTTPResponseParser).feed s) hstream rfl hsizes
          (hs.feed s) rfl rfl rfl
      obtain ⟨hall, hsmall⟩ := hcomes.ends hbuffer hm
      rw [← hcut] at hall hsmall
      have halike := parseCalls_alike hs hne hsmall
      rw [hall] at halike
      cases hcalls : HTTPMessageSequence.parseCalls (buf :: bufs)
          (initial requests : HTTPResponseParser) with
      | error err =>
          rw [hcalls] at halike
          exact halike.elim
      | ok f =>
          rw [hcalls] at halike
          have hfinals := finals_of_erase halike.complete
          have hd : d.completeMessages = ms := hcomplete
          rw [hd, List.filter_eq_self.mpr hfinal, hms] at hfinals
          rw [Paired, ← hfinals]

theorem not_paired_of_interim {bufs : List Bytes} (hstream : ServerStream requests n sizes s)
    (hn : n ≠ 0) (hsizes : ∀ size ∈ sizes, size + 2 < 2 ^ 32) (hne : ∀ buf ∈ bufs, buf ≠ [])
    (hcut : bufs.flatten = s) :
    ¬ Paired requests (HTTPMessageSequence.parseCalls bufs (initial requests)) := by
  have hs : (initial requests : HTTPResponseParser).Sound := sound_initial requests
  obtain ⟨x, y, rfl, hx, hcome⟩ := comes_first_interim hstream hn hsizes
  obtain ⟨d, hcomes, hbuffer, hm, m, hmem, hinterim⟩ := hcome
    ((initial requests : HTTPResponseParser).feed x) (hs.feed x) rfl rfl rfl
  obtain ⟨hall, hsmall⟩ := hcomes.ends hbuffer hm
  intro hpaired
  cases hcalls : HTTPMessageSequence.parseCalls bufs (initial requests : HTTPResponseParser) with
  | error err =>
      rw [hcalls] at hpaired
      exact hpaired.elim
  | ok f =>
      rw [hcalls] at hpaired
      -- the interim response is among the complete messages
      have hkept := parseCalls_extend hs hne hx hcut.symm hsmall hall hcalls
      obtain ⟨m', hmem', heq⟩ := List.mem_map.mp (hkept.subset (List.mem_map_of_mem hmem))
      have hinterim' : HTTPResponse.isFinal m' = false := by
        rw [← erase_isFinal, heq, erase_isFinal, hinterim]
      have hlt : (f.completeMessages.filter isFinal).length < f.completeMessages.length :=
        List.length_filter_lt_length_iff_exists.mpr ⟨m', hmem', by simp [hinterim']⟩
      have hle := hpaired.length_le
      have hannounced : announced f = requests.length := by
        rw [parseCalls_announced hs hne hcalls]
        simp [announced, initial, HTTPMessage.initial]
      rw [List.length_map] at hle
      rw [announced] at hannounced
      omega

end HTTPResponseParser

/-- **Responses are paired with their own requests as long as there is no
interim response.** Wherever the stream of a server is cut: no exception is
thrown and the final responses have their requests, if and only if the server
has sent no interim response. -/
theorem finals_paired_iff_no_interim {requests : List HTTPRequest} {n : Nat} {sizes : List Nat}
    {s : Bytes} (hstream : ServerStream requests n sizes s)
    (hsizes : ∀ size ∈ sizes, size + 2 < 2 ^ 32) (bufs : List Bytes)
    (hne : ∀ buf ∈ bufs, buf ≠ []) (hcut : bufs.flatten = s) :
    HTTPResponseParser.Paired requests (HTTPResponseParser.run
      (requests.map .newRequestArrived ++ bufs.map .parse) (.initial [])) ↔ n = 0 := by
  rw [HTTPResponseParser.run_announcements, HTTPResponseParser.run_bufs]
  constructor
  · intro hpaired
    by_contra hn
    exact HTTPResponseParser.not_paired_of_interim hstream hn hsizes hne hcut hpaired
  · rintro rfl
    exact HTTPResponseParser.paired_of_finals hstream hsizes hne hcut

theorem isStatusLine_ok : IsStatusLine (ascii "HTTP/1.1 200 OK") (ascii "200") :=
  ⟨by decide +kernel, ⟨ascii "HTTP/1.1", ascii "OK", by decide, by decide⟩,
    ⟨by decide, by decide +kernel⟩, by decide⟩

/-- The response `200 OK` with a body of one byte. -/
theorem isFinal_ok : HTTPResponse.IsFinal (.bare (ascii "GET / HTTP/1.1")) (ascii "HTTP/1.1 200 OK")
    (ascii "200") [⟨ascii "Content-Length", ascii "1"⟩] [] (ascii "x")
    (ascii "HTTP/1.1 200 OK\r\nContent-Length: 1\r\n\r\nx") where
  status := isStatusLine_ok
  final := by decide
  framed := .contentLength ⟨by decide, by decide, by decide⟩ (by decide)
    (show _ = Except.ok (ascii "1") by decide) ⟨by decide, by decide +kernel⟩ (by decide) (by decide)
  bytes := ⟨[ascii "Content-Length: 1"], .cons ⟨by decide +kernel, by decide, by decide⟩ .nil, by decide⟩

/-- The same without the body, for a request that asks for none. -/
theorem isFinal_head : HTTPResponse.IsFinal (.bare (ascii "HEAD / HTTP/1.1"))
    (ascii "HTTP/1.1 200 OK") (ascii "200") [⟨ascii "Content-Length", ascii "1"⟩] [] []
    (ascii "HTTP/1.1 200 OK\r\nContent-Length: 1\r\n\r\n") where
  status := isStatusLine_ok
  final := by decide
  framed := .noBody (.inr (.inr (by decide)))
  bytes := ⟨[ascii "Content-Length: 1"], .cons ⟨by decide +kernel, by decide, by decide⟩ .nil, by decide⟩

theorem isInterim_continue : HTTPResponse.IsInterim (ascii "HTTP/1.1 100 Continue") (ascii "100") []
    (ascii "HTTP/1.1 100 Continue\r\n\r\n") where
  status := ⟨by decide +kernel, ⟨ascii "HTTP/1.1", ascii "Continue", by decide, by decide⟩,
    ⟨by decide, by decide +kernel⟩, by decide⟩
  interim := by decide
  bytes := ⟨[], .nil, by decide⟩

/-- A response without its body, and one with it, in three buffers: each has the request
that says whether a body comes. -/
theorem finals_paired_iff_no_interim_head :
    HTTPResponseParser.Paired [.bare (ascii "HEAD / HTTP/1.1"), .bare (ascii "GET / HTTP/1.1")]
      (HTTPResponseParser.run
        ([.bare (ascii "HEAD / HTTP/1.1"), .bare (ascii "GET / HTTP/1.1")].map .newRequestArrived
          ++ [ascii "HTTP/1.1 200 OK\r", ascii "\nContent-Length: 1\r\n\r\nHTTP/1.1 20",
            ascii "0 OK\r\nContent-Length: 1\r\n\r\nx"].map .parse)
        (.initial [])) :=
  (finals_paired_iff_no_interim (.final isFinal_head (.final isFinal_ok .nil)) (by simp) _
    (by decide) (by decide)).mpr rfl

/-- One request, and an interim response before the final one: the interim
response takes the request, and the final one finds none. -/
theorem interim_takes_the_request :
    ServerStream [.bare (ascii "GET / HTTP/1.1")] 1 []
        (ascii "HTTP/1.1 100 Continue\r\n\r\n"
          ++ (ascii "HTTP/1.1 200 OK\r\nContent-Length: 1\r\n\r\nx" ++ [])) ∧
      ¬ HTTPResponseParser.Paired [.bare (ascii "GET / HTTP/1.1")] (HTTPResponseParser.run
        [.newRequestArrived (.bare (ascii "GET / HTTP/1.1")),
          .parse (ascii "HTTP/1.1 100 Continue\r\n\r\n"),
          .parse (ascii "HTTP/1.1 200 OK\r\nContent-Length: 1\r\n\r\nx")] (.initial [])) :=
  ⟨.interim isInterim_continue (.final isFinal_ok .nil), by decide +kernel⟩

end Mahimahi
