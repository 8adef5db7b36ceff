import Mahimahi.Machine

/-!
# The poller

`Poller::poll` goes over its actions twice. The first pass asks each of them
whether it is interested, all in the state before any callback; the second pass,
after `::poll` has returned, calls those that asked and whose descriptor is ready,
in the order of their registration, each in the state that the one before has
left. What an action asked for may be out of date by the time it is called.

The second pass is one function (`serve`) over the actions with their answers
from the first. `serve_append` splits it at any action, and `serveOne_cases` says
what can happen at one.
-/

namespace Mahimahi

/-- `FileDescriptor`: what the poller looks at. -/
structure FileDescriptor where
  fdNum : Nat
  eof : Bool
  readCount : Nat
  writeCount : Nat
  deriving DecidableEq, Repr

namespace FileDescriptor

/-- A descriptor that has just been opened. -/
def initial (fdNum : Nat) : FileDescriptor := ⟨fdNum, false, 0, 0⟩

/-- What `read` does to the counters when it returns `contents`. -/
def afterRead (contents : Bytes) (fd : FileDescriptor) : FileDescriptor :=
  { fd with eof := fd.eof || contents.isEmpty, readCount := u32 (fd.readCount + 1) }

/-- What `n` writes do to the counters. -/
def afterWrites (n : Nat) (fd : FileDescriptor) : FileDescriptor :=
  { fd with writeCount := u32 (fd.writeCount + n) }

end FileDescriptor

namespace Poller

inductive Direction where
  | input
  | output
  deriving DecidableEq, Repr

/-- `Poller::Action::Result`: `goOn` is its `Continue`. -/
inductive ActionResult where
  | goOn
  | exit (status : Nat)
  | cancel
  deriving DecidableEq, Repr

/-- `Poller::Action`. What its functions refer to is in a state `σ`, and what a
callback reads of the world is an argument. -/
structure Action (σ ι : Type) where
  fd : σ → FileDescriptor
  direction : Direction
  callback : ι → σ → Except Fault (ActionResult × σ)
  whenInterested : σ → Bool
  active : Bool

/-- What `::poll` reports of one entry: `POLLERR`, `POLLHUP` or `POLLNVAL`, and
whether the descriptor is ready in the direction of the action. The code looks at
the latter only where it asked. -/
structure Revents where
  failed : Bool
  ready : Bool
  deriving DecidableEq, Repr

/-- How `::poll` returns, with what each callback then reads of the world. How long
it may take is all that the timeout says, so it has no part in this. -/
inductive Answer (ι : Type) where
  | failed
  | timeout
  | events (revents : Nat → Revents) (input : Nat → ι)

/-- An exit of the poller: the status, and the action whose callback asked for it. -/
structure Exit where
  status : Nat
  action : Option Nat
  deriving DecidableEq, Repr

/-- `Poller::Result`. -/
inductive Result where
  | success
  | timeout
  | exit (e : Exit)
  deriving DecidableEq, Repr

variable {σ ι : Type}

def Action.serviceCount (a : Action σ ι) (s : σ) : Nat :=
  match a.direction with
  | .input => (a.fd s).readCount
  | .output => (a.fd s).writeCount

/-- Whether the first pass asks for the event of the action. -/
def Action.asks (s : σ) (a : Action σ ι) : Bool :=
  a.active && a.whenInterested s && !(a.direction == .input && (a.fd s).eof)

/-- The check after a callback, from the state before it to the one after. -/
def Action.checkServed (a : Action σ ι) (s s' : σ) : Except Fault Unit :=
  if a.serviceCount s = a.serviceCount s' then
    .error (.runtimeError "Poller: busy wait detected: callback did not read/write fd")
  else .ok ()

/-- The turn of the second pass for the `i`-th action. -/
def serveOne (i : Nat) (v : Revents) (x : ι) (a : Action σ ι) (asked : Bool) (s : σ) :
    Except Fault (Option Exit × Action σ ι × σ) :=
  if v.failed then .ok (some ⟨0, none⟩, a, s)
  else if v.ready && asked then do
    let (result, s') ← a.callback x s
    match result with
    | .exit status => return (some ⟨status, some i⟩, a, s')
    | .cancel => do
        a.checkServed s s'
        return (none, { a with active := false }, s')
    | .goOn => do
        a.checkServed s s'
        return (none, a, s')
  else .ok (none, a, s)

/-- The second pass, from the `i`-th action on. -/
def serve (revents : Nat → Revents) (input : Nat → ι) :
    Nat → List (Action σ ι × Bool) → σ → Except Fault (Option Exit × List (Action σ ι) × σ)
  | _, [], s => .ok (none, [], s)
  | i, (a, asked) :: rest, s => do
      let (exit, a, s) ← serveOne i (revents i) (input i) a asked s
      match exit with
      | some e => return (some e, a :: rest.map Prod.fst, s)
      | none => do
          let (exit, actions, s) ← serve revents input (i + 1) rest s
          return (exit, a :: actions, s)

def poll (answer : Answer ι) (actions : List (Action σ ι)) (s : σ) :
    Except Fault (Result × List (Action σ ι) × σ) :=
  let asked := actions.map fun a => (a, a.asks s)
  if asked.any Prod.snd then
    match answer with
    | .failed => .error (.systemError "poll")
    | .timeout => .ok (.timeout, actions, s)
    | .events revents input => do
        let (exit, actions, s) ← serve revents input 0 asked s
        match exit with
        | some e => return (.exit e, actions, s)
        | none => return (.success, actions, s)
  else .ok (.exit ⟨0, none⟩, actions, s)

/-- `EventLoop::internal_loop`, as far as the turns given: each with what
`wait_time` reads of the world, and how `::poll` then returns. -/
def internalLoop {κ : Type} (waitTime : κ → σ → Except Fault σ) :
    List (κ × Answer ι) → List (Action σ ι) → σ →
      Except Fault (Option Exit × List (Action σ ι) × σ)
  | [], actions, s => .ok (none, actions, s)
  | (k, answer) :: turns, actions, s => do
      let s ← waitTime k s
      let (result, actions, s) ← poll answer actions s
      match result with
      | .exit e => return (some e, actions, s)
      | .success | .timeout => internalLoop waitTime turns actions s

/-! ## What the second pass does -/

variable {revents : Nat → Revents} {input : Nat → ι} {i : Nat}

/-- The poller gives up, or passes the action by, or calls it. -/
theorem serveOne_cases {v : Revents} {x : ι} {a a' : Action σ ι} {asked : Bool} {s s' : σ}
    {e : Option Exit} (h : serveOne i v x a asked s = .ok (e, a', s')) :
    (v.failed = true ∧ e = some ⟨0, none⟩ ∧ a' = a ∧ s' = s) ∨
    ((v.ready && asked) = false ∧ e = none ∧ a' = a ∧ s' = s) ∨
    ((v.ready && asked) = true ∧ ∃ result, a.callback x s = .ok (result, s') ∧
      ((∃ status, result = .exit status ∧ e = some ⟨status, some i⟩ ∧ a' = a) ∨
        (result = .cancel ∧ e = none ∧ a' = { a with active := false }) ∨
        (result = .goOn ∧ e = none ∧ a' = a))) := by
  unfold serveOne at h
  by_cases hfailed : v.failed = true
  · rw [if_pos hfailed] at h
    cases h
    exact .inl ⟨hfailed, rfl, rfl, rfl⟩
  · rw [if_neg hfailed] at h
    right
    cases hserved : v.ready && asked with
    | false =>
        rw [hserved] at h
        cases h
        exact .inl ⟨rfl, rfl, rfl, rfl⟩
    | true =>
        rw [hserved] at h
        obtain ⟨⟨result, s₁⟩, hcall, h⟩ := bind_eq_ok.mp h
        right
        cases result with
        | exit status =>
            cases h
            exact ⟨rfl, _, hcall, .inl ⟨status, rfl, rfl, rfl⟩⟩
        | cancel =>
            obtain ⟨_, -, h⟩ := bind_eq_ok.mp h
            cases h
            exact ⟨rfl, _, hcall, .inr (.inl ⟨rfl, rfl, rfl⟩)⟩
        | goOn =>
            obtain ⟨_, -, h⟩ := bind_eq_ok.mp h
            cases h
            exact ⟨rfl, _, hcall, .inr (.inr ⟨rfl, rfl, rfl⟩)⟩

theorem serve_cons {a : Action σ ι} {asked : Bool} {rest : List (Action σ ι × Bool)} {s s' : σ}
    {e : Option Exit} {actions : List (Action σ ι)}
    (h : serve revents input i ((a, asked) :: rest) s = .ok (e, actions, s')) :
    (∃ e₁ a', e = some e₁ ∧ serveOne i (revents i) (input i) a asked s = .ok (some e₁, a', s') ∧
      actions = a' :: rest.map Prod.fst) ∨
    ∃ a' s₁ actions', serveOne i (revents i) (input i) a asked s = .ok (none, a', s₁) ∧
      serve revents input (i + 1) rest s₁ = .ok (e, actions', s') ∧ actions = a' :: actions' := by
  rw [serve] at h
  obtain ⟨⟨exit, a', s₁⟩, hone, h⟩ := bind_eq_ok.mp h
  cases exit with
  | some e₁ =>
      cases h
      exact .inl ⟨e₁, a', rfl, hone, rfl⟩
  | none =>
      obtain ⟨⟨exit, actions', s₂⟩, hrest, h⟩ := bind_eq_ok.mp h
      cases h
      exact .inr ⟨a', s₁, actions', hone, hrest, rfl⟩

theorem serve_append : ∀ {xs ys : List (Action σ ι × Bool)} {i : Nat} {s s' : σ} {e : Option Exit}
    {actions : List (Action σ ι)}, serve revents input i (xs ++ ys) s = .ok (e, actions, s') →
    (∃ e₁ actions₁, e = some e₁ ∧ serve revents input i xs s = .ok (some e₁, actions₁, s') ∧
      actions = actions₁ ++ ys.map Prod.fst) ∨
    ∃ actions₁ s₁ actions₂, serve revents input i xs s = .ok (none, actions₁, s₁) ∧
      serve revents input (i + xs.length) ys s₁ = .ok (e, actions₂, s') ∧
      actions = actions₁ ++ actions₂
  | [], ys, i, s, s', e, actions, h => .inr ⟨[], s, actions, rfl, h, rfl⟩
  | (a, asked) :: xs, ys, i, s, s', e, actions, h => by
      rcases serve_cons h with ⟨e₁, a', rfl, hone, rfl⟩ | ⟨a', s₁, actions', hone, hrest, rfl⟩
      · refine .inl ⟨e₁, a' :: xs.map Prod.fst, rfl, ?_, by simp⟩
        simp [serve, hone]
      · rcases serve_append hrest with ⟨e₁, actions₁, rfl, hxs, rfl⟩ |
          ⟨actions₁, s₂, actions₂, hxs, hys, rfl⟩
        · refine .inl ⟨e₁, a' :: actions₁, rfl, ?_, rfl⟩
          simp [serve, hone, hxs]
        · refine .inr ⟨a' :: actions₁, s₂, actions₂, ?_, ?_, rfl⟩
          · simp [serve, hone, hxs]
          · rw [List.length_cons, Nat.add_comm xs.length, ← Nat.add_assoc]
            exact hys

/-- What the callback of an action keeps, its turn in the pass keeps. -/
theorem serveOne_invariant {I : σ → Prop} {P : Action σ ι → Prop}
    (hcall : ∀ a x s result s', P a → I s → a.callback x s = .ok (result, s') → I s')
    (hcancel : ∀ a, P a → P { a with active := false }) {a a' : Action σ ι} {asked : Bool}
    {s s' : σ} {e : Option Exit} (ha : P a) (hI : I s)
    (h : serveOne i (revents i) (input i) a asked s = .ok (e, a', s')) :
    I s' ∧ P a' ∧ ∀ e₁ ∈ e, ∀ j ∈ e₁.action, j = i := by
  rcases serveOne_cases h with ⟨-, rfl, rfl, rfl⟩ | ⟨-, rfl, rfl, rfl⟩ | ⟨-, result, hc, hr⟩
  · exact ⟨hI, ha, fun e₁ he j hj => by cases he; cases hj⟩
  · exact ⟨hI, ha, fun e₁ he => (by cases he)⟩
  · have hI' := hcall a _ s result s' ha hI hc
    rcases hr with ⟨status, -, rfl, rfl⟩ | ⟨-, rfl, rfl⟩ | ⟨-, rfl, rfl⟩
    · exact ⟨hI', ha, fun e₁ he j hj => by cases he; cases hj; rfl⟩
    · exact ⟨hI', hcancel a ha, fun e₁ he => (by cases he)⟩
    · exact ⟨hI', ha, fun e₁ he => (by cases he)⟩

/-- What every callback keeps, the pass keeps; and an exit that a callback asked
for came from one of these actions. -/
theorem serve_invariant {I : σ → Prop} {P : Action σ ι → Prop}
    (hcall : ∀ a x s result s', P a → I s → a.callback x s = .ok (result, s') → I s')
    (hcancel : ∀ a, P a → P { a with active := false }) :
    ∀ {xs : List (Action σ ι × Bool)} {i : Nat} {s s' : σ} {e : Option Exit}
      {actions : List (Action σ ι)}, serve revents input i xs s = .ok (e, actions, s') →
    (∀ x ∈ xs, P x.1) → I s →
    I s' ∧ (∀ a ∈ actions, P a) ∧ actions.length = xs.length ∧
      ∀ e₁ ∈ e, ∀ j ∈ e₁.action, i ≤ j ∧ j < i + xs.length
  | [], i, s, s', e, actions, h, _, hI => by
      cases h
      exact ⟨hI, fun a ha => (by cases ha), rfl, fun e₁ he => (by cases he)⟩
  | (a, asked) :: xs, i, s, s', e, actions, h, hP, hI => by
      have ha := hP (a, asked) List.mem_cons_self
      have hxs : ∀ x ∈ xs, P x.1 := fun x hx => hP x (List.mem_cons_of_mem _ hx)
      rcases serve_cons h with ⟨e₁, a', rfl, h₁, rfl⟩ | ⟨a', s₁, actions', h₁, hrest, rfl⟩
      · obtain ⟨hI', ha', hexit⟩ := serveOne_invariant hcall hcancel ha hI h₁
        refine ⟨hI', fun b hb => ?_, by simp, fun e₂ he j hj => ?_⟩
        · rcases List.mem_cons.mp hb with rfl | hb
          · exact ha'
          · obtain ⟨x, hx, rfl⟩ := List.mem_map.mp hb
            exact hxs x hx
        · have := hexit e₂ he j hj
          rw [List.length_cons]
          omega
      · obtain ⟨hI', ha', -⟩ := serveOne_invariant hcall hcancel ha hI h₁
        obtain ⟨hI'', hactions, hlen, hexit⟩ := serve_invariant hcall hcancel hrest hxs hI'
        refine ⟨hI'', fun b hb => ?_, by simp [hlen], fun e₂ he j hj => ?_⟩
        · rcases List.mem_cons.mp hb with rfl | hb
          · exact ha'
          · exact hactions b hb
        · have := hexit e₂ he j hj
          rw [List.length_cons]
          omega

end Poller

end Mahimahi
