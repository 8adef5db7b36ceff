import Mathlib.Order.Monotone.Defs
import Mahimahi.PollTimeout
import Mahimahi.PollerRounds
import Mahimahi.ReadWrite
import Mahimahi.SwitchingLink

/-!
# The loop of the shells that have no link

`PacketShell::Ferry::loop` is a template: what it asks of its queue is six functions
(`FerryQueueType`). The queues of `mm-meter`, `mm-delay`, `mm-loss` and `mm-onoff` are
simple ones, and what the loop makes of them can be said once.

`Conveys` is what a queue promises, as a relation between what has been read, what has
been written and the queue. The point is `write_packets`: called at a reading of the
clock at which `pending_output` has said yes, or later, it has to write at least one
packet, or the poller takes the callback for a busy wait. `conveys_loop` is the rule:
the loop then keeps the relation in every run, whatever else is registered, and the
poller never complains as long as 32 bits are enough to count the packets.

`timestamp` reads a clock that can be set, so nothing is said of the readings that come
one after the other (`clock k` is the `k`-th). The queues that delay rely on a clock that
does not go back, and `Conveys` says who does; for the delay of `mm-delay` the promise
depends on its size as well (`delay_ferry_iff`).
-/

namespace Mahimahi

/-- A datagram that a tun device gives: a packet is never empty. -/
structure Datagram where
  contents : Bytes
  nonempty : contents ≠ []

/-- What the loop calls of its queue: each with its reading of the clock, of which
`write_packets` makes one for each test of its loop, and with what else it reads of the
world. -/
structure FerryQueueType (Q ι : Type) where
  readPacket : Nat → ι → Bytes → Q → Except Fault Q
  writePackets : (Nat → Nat) → Q → Except Fault (List Bytes × Q)
  pendingOutput : Nat → Q → Bool
  finished : Q → Bool
  waitTime : Nat → ι → Q → Except Fault (Nat × Q)

/-- A packet that has been read: the queue as it was, and what `read_packet` was given. -/
structure Arrival (Q ι : Type) where
  queue : Q
  now : Nat
  world : ι
  contents : Bytes

/-! ## The loop -/

/-- What the actions of the loop refer to. `now` is the latest reading of the clock, and
`readings` says how many there have been; `incoming` is what the tun device has still to
give. For the record: what has been read, and what has been written, each with the reading
that let it go. -/
structure ShellFerry (Q ι ω : Type) where
  queue : Q
  tun : FileDescriptor
  sibling : FileDescriptor
  now : Nat
  readings : Nat
  incoming : List Datagram
  read : List (Arrival Q ι)
  written : List (Nat × Bytes)
  others : ω

/-- What a callback reads of the world but the clock: for the queue, or for the handlers of
others. -/
structure ShellInput (ι κ : Type) where
  world : ι
  other : κ

namespace ShellFerry

open Poller

variable {Q ι κ ω : Type}

/-- `tun device gets datagram -> read it -> give to ferry` -/
def tunInput (F : FerryQueueType Q ι) (clock : Nat → Nat) :
    Poller.Action (ShellFerry Q ι ω) (ShellInput ι κ) where
  fd f := f.tun
  direction := .input
  callback x f :=
    match f.incoming with
    | [] => .error (.systemError "read")
    | d :: incoming => do
        let now := clock f.readings
        let queue ← F.readPacket now x.world d.contents f.queue
        return (.goOn, { f with
          queue := queue
          tun := f.tun.afterRead d.contents
          now := now
          readings := f.readings + 1
          incoming := incoming
          read := f.read ++ [⟨f.queue, now, x.world, d.contents⟩] })
  whenInterested _ := true
  active := true

/-- `ferry ready to write datagram -> send to sibling's tun device`. A reading lets each
packet go, and at most one more ends the loop. -/
def siblingOutput (F : FerryQueueType Q ι) (clock : Nat → Nat) :
    Poller.Action (ShellFerry Q ι ω) (ShellInput ι κ) where
  fd f := f.sibling
  direction := .output
  callback _ f := do
    let tests := fun k => clock (f.readings + k)
    let (written, queue) ← F.writePackets tests f.queue
    return (.goOn, { f with
      queue := queue
      sibling := f.sibling.afterWrites written.length
      now := tests written.length
      readings := f.readings + (written.length + 1)
      written := f.written ++ departures tests 0 written })
  whenInterested f := F.pendingOutput f.now f.queue
  active := true

/-- `exit if finished` -/
def exitIfFinished (F : FerryQueueType Q ι) :
    Poller.Action (ShellFerry Q ι ω) (ShellInput ι κ) where
  fd f := f.sibling
  direction := .output
  callback _ f := .ok (.exit 77, f)
  whenInterested f := F.finished f.queue
  active := true

/-- A handler of others, which knows nothing of the ferry. -/
def other (a : Poller.Action ω κ) : Poller.Action (ShellFerry Q ι ω) (ShellInput ι κ) where
  fd f := a.fd f.others
  direction := a.direction
  callback x f := do
    let (result, others) ← a.callback x.other f.others
    return (result, { f with others := others })
  whenInterested f := a.whenInterested f.others
  active := a.active

/-- The actions in the order of their registration, with those of others before and the
one for signals behind. -/
def actions (F : FerryQueueType Q ι) (clock : Nat → Nat) (earlier : List (Poller.Action ω κ))
    (signal : Poller.Action ω κ) : List (Poller.Action (ShellFerry Q ι ω) (ShellInput ι κ)) :=
  earlier.map other ++ [tunInput F clock, siblingOutput F clock, exitIfFinished F] ++ [other signal]

/-- `ferry_queue.wait_time()`, and the reading of `pending_output` when the poller asks. -/
def waitTime (F : FerryQueueType Q ι) (clock : Nat → Nat) (x : ι) (f : ShellFerry Q ι ω) :
    Except Fault (ShellFerry Q ι ω) := do
  let (_, queue) ← F.waitTime (clock f.readings) x f.queue
  return { f with queue := queue, now := clock (f.readings + 1), readings := f.readings + 2 }

/-- The loop, as far as the turns given: each with what `wait_time` reads of the world, and
how the poller's call returns. -/
def loop (F : FerryQueueType Q ι) (clock : Nat → Nat) (earlier : List (Poller.Action ω κ))
    (signal : Poller.Action ω κ) (turns : List (ι × Answer (ShellInput ι κ)))
    (f : ShellFerry Q ι ω) : Except Fault
      (Option Exit × List (Poller.Action (ShellFerry Q ι ω) (ShellInput ι κ)) × ShellFerry Q ι ω) :=
  internalLoop (waitTime F clock) turns (actions F clock earlier signal) f

/-- A ferry with a queue that has just been made, before the first reading. -/
def start (queue : Q) (tun sibling : FileDescriptor) (stream : List Datagram) (others : ω) :
    ShellFerry Q ι ω :=
  ⟨queue, tun, sibling, 0, 0, stream, [], [], others⟩

end ShellFerry

/-! ## What a queue promises -/

open ShellFerry

/-- The relation `R` of what has been read, what has been written and the queue is kept, and
what is pending stays so until it is written. If the queue relies on it (`steady`), each
reading comes after those before. -/
structure FerryQueueType.Conveys {Q ι : Type} (F : FerryQueueType Q ι) (steady : Prop)
    (E : Fault → Prop) (R : List (Arrival Q ι) → List (Nat × Bytes) → Q → Prop) : Prop where
  read : ∀ rs ws q t now x c, R rs ws q → c ≠ [] →
    (steady → (∀ a ∈ rs, a.now ≤ t) ∧ t ≤ now) →
    Outcome E (fun q' => R (rs ++ [⟨q, now, x, c⟩]) ws q' ∧
      (F.pendingOutput t q = true → F.pendingOutput now q' = true)) (F.readPacket now x c q)
  write : ∀ rs ws q t clock, R rs ws q → F.pendingOutput t q = true →
    (steady → (∀ a ∈ rs, a.now ≤ t) ∧ t ≤ clock 0) →
    Outcome E (fun r => R rs (ws ++ departures clock 0 r.1) r.2 ∧ r.1 ≠ [] ∧
      r.1.length ≤ rs.length) (F.writePackets clock q)
  wait : ∀ rs ws q now x, R rs ws q → Outcome E (fun r => R rs ws r.2) (F.waitTime now x q)
  unfinished : ∀ q, F.finished q = false

/-- What is kept in the loop. -/
structure Conveyed {Q ι ω : Type} (clock : Nat → Nat)
    (R : List (Arrival Q ι) → List (Nat × Bytes) → Q → Prop) (J : ω → Prop)
    (stream : List Datagram) (f : ShellFerry Q ι ω) : Prop where
  related : R f.read f.written f.queue
  past : Monotone clock → ∀ a ∈ f.read, a.now ≤ f.now
  ahead : Monotone clock → ∀ k, f.readings ≤ k → f.now ≤ clock k
  stream : f.read.map Arrival.contents ++ f.incoming.map Datagram.contents
    = stream.map Datagram.contents
  others : J f.others

/-- What may be thrown: a call of the system fails, or the queue or another handler
throws; and where there are 2 ^ 32 datagrams or more, a count of them may be one of none. -/
def ShellFault (E Eo : Fault → Prop) (stream : List Datagram) (e : Fault) : Prop :=
  e = .systemError "read" ∨ E e ∨ Eo e ∨ e = Poller.busyWait ∧ 2 ^ 32 ≤ stream.length

namespace ShellFerry

open Poller

section

variable {Q ι κ ω : Type} {F : FerryQueueType Q ι} {E Eo : Fault → Prop} {J : ω → Prop}
  {R : List (Arrival Q ι) → List (Nat × Bytes) → Q → Prop} {stream : List Datagram}
  {steady : Prop} {clock : Nat → Nat}

/-- What a queue that relies on the clock is told of the next readings. -/
theorem later_of_steady {f : ShellFerry Q ι ω} (hf : Conveyed clock R J stream f)
    (hsteady : steady → Monotone clock) {k : Nat} (hk : f.readings ≤ k) (h : steady) :
    (∀ a ∈ f.read, a.now ≤ f.now) ∧ f.now ≤ clock k :=
  ⟨hf.past (hsteady h), hf.ahead (hsteady h) k hk⟩

/-- Nothing is kept of the actions but that they are there. -/
def Any (_ : Poller.Action (ShellFerry Q ι ω) (ShellInput ι κ)) (_ : ShellFerry Q ι ω) : Prop := True

theorem u32_add_ne {c n : Nat} (hpos : 0 < n) (hlt : n < 2 ^ 32) : c ≠ u32 (c + n) := by
  unfold u32
  omega

theorem wants_siblingOutput {f : ShellFerry Q ι ω} :
    (siblingOutput (κ := κ) F clock).wants f = F.pendingOutput f.now f.queue :=
  Bool.and_true _

theorem serves_tunInput (h : F.Conveys steady E R) (hsteady : steady → Monotone clock) :
    Serves (Conveyed (ω := ω) clock R J stream) (ShellFault E Eo stream) Any
      (tunInput (κ := κ) F clock) where
  serves x f hf _ := by
    show Outcome _ _ (match f.incoming with | [] => _ | _ :: _ => _)
    cases hincoming : f.incoming with
    | nil => exact .inl rfl
    | cons d incoming =>
        have hread := h.read f.read f.written f.queue f.now (clock f.readings) x.world
          d.contents hf.related d.nonempty (later_of_steady hf hsteady le_rfl)
        refine (hread.mono (fun e he => .inr (.inl he)) fun q' hq => hq).bind ?_
        rintro q' ⟨hrelated, -⟩
        have hcount : f.tun.readCount ≠ (f.tun.afterRead d.contents).readCount :=
          u32_add_ne Nat.one_pos (by decide)
        refine ⟨⟨hrelated, fun hmono a ha => ?_, fun hmono k hk => ?_, ?_, hf.others⟩,
          fun heq => absurd heq hcount, fun hcancel => (by cases hcancel)⟩
        · rcases List.mem_append.mp ha with ha | ha
          · exact (hf.past hmono a ha).trans (hf.ahead hmono _ le_rfl)
          · rw [List.mem_singleton.mp ha]
        · exact hmono ((Nat.le_succ _).trans hk)
        · have hstream := hf.stream
          rw [hincoming, List.map_cons] at hstream
          rw [← hstream, List.map_append, List.append_assoc]
          rfl
  keeps _ _ _ _ _ _ _ _ := trivial

theorem serves_siblingOutput (h : F.Conveys steady E R) (hsteady : steady → Monotone clock) :
    Serves (Conveyed (ω := ω) clock R J stream) (ShellFault E Eo stream) Any
      (siblingOutput (κ := κ) F clock) where
  serves x f hf hwants := by
    rw [wants_siblingOutput] at hwants
    have hwrite := h.write f.read f.written f.queue f.now (fun k => clock (f.readings + k))
      hf.related hwants (later_of_steady hf hsteady le_rfl)
    refine (hwrite.mono (fun e he => .inr (.inl he)) fun r hr => hr).bind ?_
    rintro ⟨written, queue⟩ ⟨hrelated, hne, hlength⟩
    refine ⟨⟨hrelated, fun hmono a ha => ?_, fun hmono k hk => hmono (Nat.le_of_lt hk), hf.stream,
      hf.others⟩, fun heq => ?_, fun hcancel => (by cases hcancel)⟩
    · exact (hf.past hmono a ha).trans (hf.ahead hmono _ (Nat.le_add_right ..))
    · have hread : f.read.length ≤ stream.length := by
        have := congrArg List.length hf.stream
        simp only [List.length_append, List.length_map] at this
        omega
      refine .inr (.inr (.inr ⟨rfl, ?_⟩))
      by_contra hroom
      have hroom : written.length < 2 ^ 32 := by
        have : written.length ≤ f.read.length := hlength
        omega
      exact u32_add_ne (List.length_pos_iff.mpr hne) hroom heq
  keeps _ _ _ _ _ _ _ _ := trivial

theorem serves_exitIfFinished (h : F.Conveys steady E R) :
    Serves (Conveyed (ω := ω) clock R J stream) (ShellFault E Eo stream) Any
      (exitIfFinished (κ := κ) F) where
  serves x f _ hwants := by
    have hwants : (F.finished f.queue && !false) = true := hwants
    rw [h.unfinished] at hwants
    cases hwants
  keeps _ _ _ _ _ _ _ _ := trivial

theorem serves_other {a : Poller.Action ω κ} {P : Poller.Action ω κ → ω → Prop}
    (ha : Serves J Eo P a) :
    Serves (Conveyed (ι := ι) clock R J stream) (ShellFault E Eo stream) Any
      (other (Q := Q) (ι := ι) a) where
  serves x f hf hwants := by
    have hserves := ha.serves x.other f.others hf.others hwants
    refine (hserves.mono (fun e he => .inr (.inr (.inl he))) fun r hr => hr).bind ?_
    rintro ⟨result, others⟩ ⟨hothers, hcount, -⟩
    exact ⟨⟨hf.related, hf.past, hf.ahead, hf.stream, hothers⟩,
      fun heq => .inr (.inr (.inl (hcount heq))), fun _ => trivial⟩
  keeps _ _ _ _ _ _ _ _ := trivial

/-! ### Nobody takes away what another one wants -/

theorem callback_other {a : Poller.Action ω κ} {x : ShellInput ι κ} {f : ShellFerry Q ι ω}
    {r : ActionResult × ShellFerry Q ι ω} (h : (other a).callback x f = .ok r) :
    a.callback x.other f.others = .ok (r.1, r.2.others) ∧
      r.2 = { f with others := r.2.others } := by
  obtain ⟨⟨result, others⟩, hcall, hr⟩ := bind_eq_ok.mp h
  cases hr
  exact ⟨hcall, rfl⟩

theorem callback_tunInput {x : ShellInput ι κ} {f : ShellFerry Q ι ω}
    {r : ActionResult × ShellFerry Q ι ω} (h : (tunInput F clock).callback x f = .ok r) :
    ∃ d : Datagram, F.readPacket (clock f.readings) x.world d.contents f.queue = .ok r.2.queue ∧
      r.2.now = clock f.readings ∧ r.2.others = f.others := by
  have h : (match f.incoming with | [] => _ | _ :: _ => _) = Except.ok r := h
  cases hincoming : f.incoming with
  | nil =>
      rw [hincoming] at h
      cases h
  | cons d incoming =>
      rw [hincoming] at h
      obtain ⟨q', hread, hr⟩ := bind_eq_ok.mp h
      cases hr
      exact ⟨d, hread, rfl, rfl⟩

theorem callback_siblingOutput {x : ShellInput ι κ} {f : ShellFerry Q ι ω}
    {r : ActionResult × ShellFerry Q ι ω} (h : (siblingOutput F clock).callback x f = .ok r) :
    r.2.others = f.others := by
  obtain ⟨⟨written, queue⟩, -, hr⟩ := bind_eq_ok.mp h
  cases hr
  rfl

theorem leaves_exitIfFinished (h : F.Conveys steady E R)
    (a : Poller.Action (ShellFerry Q ι ω) (ShellInput ι κ)) :
    Leaves (Conveyed clock R J stream) a (exitIfFinished F) := by
  intro x f r _ _ _ hb
  have hb : (F.finished f.queue && !false) = true := hb
  rw [h.unfinished] at hb
  cases hb

/-- A handler of others is left what it wants by those who know nothing of it. -/
theorem leaves_to_other {a : Poller.Action (ShellFerry Q ι ω) (ShellInput ι κ)}
    {b : Poller.Action ω κ} (h : ∀ x f r, a.callback x f = .ok r → r.2.others = f.others) :
    Leaves (Conveyed clock R J stream) a (other b) := by
  intro x f r _ _ hcall hb
  have hb : b.wants f.others = true := hb
  show b.wants r.2.others = true
  rw [h x f r hcall]
  exact hb

theorem leaves_from_other {a : Poller.Action ω κ}
    {b : Poller.Action (ShellFerry Q ι ω) (ShellInput ι κ)}
    (h : ∀ (f : ShellFerry Q ι ω) others, b.wants { f with others := others } = b.wants f) :
    Leaves (Conveyed clock R J stream) (other a) b := by
  intro x f r _ _ hcall hb
  rw [(callback_other hcall).2, h]
  exact hb

theorem leaves_other {a b : Poller.Action ω κ} (h : Leaves J a b) :
    Leaves (Conveyed (Q := Q) (ι := ι) clock R J stream) (other a) (other b) := by
  intro x f r hf ha hcall hb
  exact h x.other f.others (r.1, r.2.others) hf.others ha (callback_other hcall).1 hb

/-- What is pending when the poller asks is still there after another packet is read. -/
theorem leaves_tunInput (h : F.Conveys steady E R) (hsteady : steady → Monotone clock) :
    Leaves (Conveyed clock R J stream) (tunInput F clock)
      (siblingOutput F clock : Poller.Action (ShellFerry Q ι ω) (ShellInput ι κ)) := by
  intro x f r hf _ hcall hb
  obtain ⟨d, hread, hnow, -⟩ := callback_tunInput hcall
  have hkept := h.read f.read f.written f.queue f.now (clock f.readings) x.world d.contents
    hf.related d.nonempty (later_of_steady hf hsteady le_rfl)
  rw [wants_siblingOutput] at hb ⊢
  rw [hnow]
  exact (hkept.of_ok hread).2 hb

/-! ### All rounds -/

/-- The handlers of others, with what is asked of them. -/
structure Independent (J : ω → Prop) (Eo : Fault → Prop) (P : Poller.Action ω κ → ω → Prop)
    (others : List (Poller.Action ω κ)) : Prop where
  serves : ∀ a ∈ others, Serves J Eo P a
  leaves : others.Pairwise (Leaves J)

theorem serves_actions (h : F.Conveys steady E R) (hsteady : steady → Monotone clock)
    {P : Poller.Action ω κ → ω → Prop}
    {earlier : List (Poller.Action ω κ)} {signal : Poller.Action ω κ}
    (hothers : Independent J Eo P (earlier ++ [signal])) :
    ∀ a ∈ actions F clock earlier signal, Serves (Conveyed clock R J stream) (ShellFault E Eo stream) Any a := by
  intro a ha
  simp only [actions, List.mem_append, List.mem_map, List.mem_cons, List.not_mem_nil,
    or_false] at ha
  rcases ha with (⟨b, hb, rfl⟩ | rfl | rfl | rfl) | rfl
  · exact serves_other (hothers.serves b (List.mem_append_left _ hb))
  · exact serves_tunInput h hsteady
  · exact serves_siblingOutput h hsteady
  · exact serves_exitIfFinished h
  · exact serves_other (hothers.serves signal (List.mem_append_right _ List.mem_cons_self))

theorem leaves_actions (h : F.Conveys steady E R) (hsteady : steady → Monotone clock)
    {P : Poller.Action ω κ → ω → Prop}
    {earlier : List (Poller.Action ω κ)} {signal : Poller.Action ω κ}
    (hothers : Independent J Eo P (earlier ++ [signal])) :
    (actions F clock earlier signal).Pairwise (Leaves (Conveyed clock R J stream)) := by
  have hleaves := hothers.leaves
  rw [List.pairwise_append] at hleaves
  obtain ⟨hearlier, -, hsignal⟩ := hleaves
  have htun : Leaves (Conveyed clock R J stream) (tunInput F clock)
      (other signal : Poller.Action (ShellFerry Q ι ω) (ShellInput ι κ)) := by
    refine leaves_to_other fun x f r hcall => ?_
    obtain ⟨d, -, -, hothers⟩ := callback_tunInput hcall
    exact hothers
  have hsibling : Leaves (Conveyed clock R J stream) (siblingOutput F clock)
      (other signal : Poller.Action (ShellFerry Q ι ω) (ShellInput ι κ)) :=
    leaves_to_other fun x f r hcall => callback_siblingOutput hcall
  have hexit : Leaves (Conveyed clock R J stream) (exitIfFinished F)
      (other signal : Poller.Action (ShellFerry Q ι ω) (ShellInput ι κ)) := by
    refine leaves_to_other fun x f r hcall => ?_
    cases hcall
    rfl
  rw [actions, List.append_assoc, List.pairwise_append]
  refine ⟨List.pairwise_map.mpr (hearlier.imp fun hab => leaves_other hab), ?_, ?_⟩
  · simp only [List.cons_append, List.nil_append, List.pairwise_cons, List.mem_cons,
      List.not_mem_nil, or_false, forall_eq_or_imp, forall_eq, false_implies, implies_true,
      List.Pairwise.nil, and_true]
    exact ⟨⟨leaves_tunInput h hsteady, leaves_exitIfFinished h _, htun⟩,
      ⟨leaves_exitIfFinished h _, hsibling⟩, hexit⟩
  · intro a hmem b hb
    obtain ⟨a, ha, rfl⟩ := List.mem_map.mp hmem
    simp only [List.cons_append, List.nil_append, List.mem_cons, List.not_mem_nil, or_false] at hb
    rcases hb with rfl | rfl | rfl | rfl
    · exact leaves_from_other fun f others => rfl
    · exact leaves_from_other fun f others => rfl
    · exact leaves_from_other fun f others => rfl
    · exact leaves_other (hsignal a ha signal List.mem_cons_self)

/-- The rule for the loop of a packet shell. -/
theorem conveys_loop (h : F.Conveys steady E R) (hsteady : steady → Monotone clock)
    {P : Poller.Action ω κ → ω → Prop}
    {earlier : List (Poller.Action ω κ)} {signal : Poller.Action ω κ}
    (hothers : Independent J Eo P (earlier ++ [signal]))
    (turns : List (ι × Answer (ShellInput ι κ))) {f : ShellFerry Q ι ω}
    (hf : Conveyed clock R J stream f) :
    Outcome (fun e => e = .systemError "poll" ∨ ShellFault E Eo stream e)
      (fun r => Conveyed clock R J stream r.2.2) (loop F clock earlier signal turns f) := by
  refine (internalLoop_sound (P := Any) (I := Conveyed clock R J stream) (fun x f hf => ?_) turns
    (serves_actions h hsteady hothers) (leaves_actions h hsteady hothers) hf
    fun _ _ => trivial).mono (fun e he => he) fun r hr => hr.1
  have hwait := h.wait f.read f.written f.queue (clock f.readings) x hf.related
  refine (hwait.mono (fun e he => .inr (.inl he)) fun r hr => hr).bind ?_
  rintro ⟨w, queue⟩ hrelated
  exact ⟨⟨hrelated, fun hmono a ha => (hf.past hmono a ha).trans (hf.ahead hmono _ (Nat.le_succ _)),
    fun hmono k hk => hmono ((Nat.le_succ _).trans hk), hf.stream, hf.others⟩, fun _ _ => trivial⟩

/-- Every run of the loop, from a start with the queue `q` and over any clock for which `C`,
keeps the relation and throws nothing else. -/
def Runs (C : (Nat → Nat) → Prop) (F : FerryQueueType Q ι) (E Eo : Fault → Prop)
    (R : List (Arrival Q ι) → List (Nat × Bytes) → Q → Prop) (J : ω → Prop)
    (earlier : List (Poller.Action ω κ)) (signal : Poller.Action ω κ) (q : Q) (others : ω) : Prop :=
  ∀ (clock : Nat → Nat), C clock → ∀ (tun sibling : FileDescriptor) (stream : List Datagram)
    (turns : List (ι × Answer (ShellInput ι κ))),
    Outcome (fun e => e = .systemError "poll" ∨ ShellFault E Eo stream e)
      (fun r => Conveyed clock R J stream r.2.2)
      (loop F clock earlier signal turns (start q tun sibling stream others))

theorem runs_of_conveys {C : (Nat → Nat) → Prop} (h : F.Conveys steady E R)
    (hC : ∀ clock, C clock → steady → Monotone clock) {P : Poller.Action ω κ → ω → Prop}
    {earlier : List (Poller.Action ω κ)} {signal : Poller.Action ω κ} {q : Q} {others : ω}
    (hothers : Independent J Eo P (earlier ++ [signal])) (hJ : J others) (hq : R [] [] q) :
    Runs C F E Eo R J earlier signal q others := by
  intro clock hclock tun sibling stream turns
  refine conveys_loop h (hC clock hclock) hothers turns
    ⟨hq, fun _ a ha => (by cases ha), fun _ k _ => Nat.zero_le _, rfl, hJ⟩

/-! ### Rounds in which only the ferry is called -/

theorem poll_tunInput {earlier : List (Poller.Action ω κ)} {signal : Poller.Action ω κ}
    {input : Nat → ShellInput ι κ} {f f' : ShellFerry Q ι ω} (heof : f.tun.eof = false)
    (hcall : (tunInput F clock).callback (input earlier.length) f = .ok (.goOn, f')) :
    poll (.events (only earlier.length) input) (actions F clock earlier signal) f = (do
      (tunInput (κ := κ) F clock).checkServed f f'
      return (.success, actions F clock earlier signal, f')) := by
  have hactions : actions (κ := κ) F clock earlier signal = earlier.map other ++
      tunInput F clock :: [siblingOutput F clock, exitIfFinished F, other signal] := by
    simp [actions]
  have hlength : (earlier.map (other (Q := Q) (ι := ι))).length = earlier.length := List.length_map _
  have hasks : (tunInput (κ := κ) F clock).asks f = true := by
    simp [Action.asks, tunInput, heof]
  rw [hactions, ← hlength]
  rw [← hlength] at hcall
  exact poll_only hasks hcall

theorem poll_siblingOutput {earlier : List (Poller.Action ω κ)} {signal : Poller.Action ω κ}
    {input : Nat → ShellInput ι κ} {f f' : ShellFerry Q ι ω}
    (hpending : F.pendingOutput f.now f.queue = true)
    (hcall : (siblingOutput F clock).callback (input (earlier.length + 1)) f = .ok (.goOn, f')) :
    poll (.events (only (earlier.length + 1)) input) (actions F clock earlier signal) f = (do
      (siblingOutput (κ := κ) F clock).checkServed f f'
      return (.success, actions F clock earlier signal, f')) := by
  have hactions : actions (κ := κ) F clock earlier signal = (earlier.map other ++ [tunInput F clock]) ++
      siblingOutput F clock :: [exitIfFinished F, other signal] := by
    simp [actions]
  have hlength : (earlier.map (other (Q := Q) (ι := ι)) ++ [tunInput F clock]).length
      = earlier.length + 1 := by
    rw [List.length_append, List.length_map, List.length_singleton]
  have hasks : (siblingOutput (κ := κ) F clock).asks f = true := by
    rw [asks_eq, wants_siblingOutput, hpending]
    rfl
  rw [hactions, ← hlength]
  rw [← hlength] at hcall
  exact poll_only hasks hcall

end

end ShellFerry

end Mahimahi
