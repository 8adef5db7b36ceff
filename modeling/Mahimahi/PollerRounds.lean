import Mathlib.Data.List.Forall2
import Mahimahi.Outcome
import Mahimahi.Poller

/-!
# Rounds of the poller in which nobody is taken by surprise

The second pass of `Poller::poll` calls an action for the interest that it showed
in the first one. That is only sound where the callbacks in front of it leave this
interest alone: they are called in between, and most of them assert what they
were asked for.

`Leaves` is this condition on two actions, and `Serves` what an action then
promises. `rounds_sound` is the rule: where every action serves and none takes away
the interest of one behind it, a round keeps the invariant, ends only with the
faults that the actions have themselves, and never finds a busy wait.
-/

namespace Mahimahi

namespace Poller

variable {σ ι : Type}

/-! ## What is asked of the actions -/

/-- Whether the event of the action is asked for as long as it has not been
cancelled. -/
def Action.wants (s : σ) (a : Action σ ι) : Bool :=
  a.whenInterested s && !(a.direction == .input && (a.fd s).eof)

theorem asks_eq (s : σ) (a : Action σ ι) : a.asks s = (a.active && a.wants s) := by
  rw [Action.asks, Action.wants, Bool.and_assoc]

/-- What the poller throws when a callback has not used its descriptor. -/
def busyWait : Fault :=
  .runtimeError "Poller: busy wait detected: callback did not read/write fd"

/-- The action, called when it wants to be, keeps the invariant `I` and uses its
descriptor, unless a busy wait is among the faults. `P` is what is kept of the actions:
where this one asks to be cancelled, it holds of the cancelled action, and no callback
takes it from another one. -/
structure Serves (I : σ → Prop) (E : Fault → Prop) (P : Action σ ι → σ → Prop)
    (a : Action σ ι) : Prop where
  serves : ∀ x s, I s → a.wants s = true →
    Outcome E (fun r => I r.2 ∧ (a.serviceCount s = a.serviceCount r.2 → E busyWait) ∧
      (r.1 = .cancel → P { a with active := false } r.2)) (a.callback x s)
  keeps : ∀ x s r, I s → a.wants s = true → a.callback x s = .ok r →
    ∀ b, P b s → P b r.2

/-- The callback of `a` does not take away what `b` wants. -/
def Leaves (I : σ → Prop) (a b : Action σ ι) : Prop :=
  ∀ x s r, I s → a.wants s = true → a.callback x s = .ok r →
    b.wants s = true → b.wants r.2 = true

/-- The same action, cancelled or not. -/
def SameBut (a b : Action σ ι) : Prop := b = { a with active := b.active }

theorem SameBut.refl (a : Action σ ι) : SameBut a a := rfl

theorem SameBut.trans {a b c : Action σ ι} (hab : SameBut a b) (hbc : SameBut b c) : SameBut a c := by
  rw [SameBut] at *
  rw [hbc, hab]

theorem sameBut_self (l : List (Action σ ι)) : List.Forall₂ SameBut l l :=
  List.forall₂_same.mpr fun a _ => SameBut.refl a

theorem sameBut_trans {l₁ l₂ l₃ : List (Action σ ι)} (h : List.Forall₂ SameBut l₁ l₂) :
    List.Forall₂ SameBut l₂ l₃ → List.Forall₂ SameBut l₁ l₃ := by
  induction h generalizing l₃ with
  | nil =>
      intro h'
      cases h'
      exact .nil
  | cons hab _ ih =>
      intro h'
      cases h' with
      | cons hbc hrest => exact .cons (hab.trans hbc) (ih hrest)

theorem exists_sameBut {l l' : List (Action σ ι)} (h : List.Forall₂ SameBut l l') :
    (∀ a ∈ l, ∃ b ∈ l', SameBut a b) ∧ ∀ b ∈ l', ∃ a ∈ l, SameBut a b := by
  induction h with
  | nil => exact ⟨fun a ha => (by cases ha), fun b hb => (by cases hb)⟩
  | cons hab _ ih =>
      constructor
      · intro a ha
        rcases List.mem_cons.mp ha with rfl | ha
        · exact ⟨_, List.mem_cons_self, hab⟩
        · obtain ⟨b, hb, hsame⟩ := ih.1 a ha
          exact ⟨b, List.mem_cons_of_mem _ hb, hsame⟩
      · intro b hb
        rcases List.mem_cons.mp hb with rfl | hb
        · exact ⟨_, List.mem_cons_self, hab⟩
        · obtain ⟨a, ha, hsame⟩ := ih.2 b hb
          exact ⟨a, List.mem_cons_of_mem _ ha, hsame⟩

variable {I : σ → Prop} {E : Fault → Prop} {P : Action σ ι → σ → Prop}

/-- Whether an action is cancelled has no part in what is asked of it. -/
theorem Serves.sameBut {a b : Action σ ι} (h : Serves I E P a) (hab : SameBut a b) :
    Serves I E P b := by
  rw [hab]
  exact ⟨h.serves, h.keeps⟩

theorem Leaves.sameBut {a a' b b' : Action σ ι} (h : Leaves I a b) (ha : SameBut a a')
    (hb : SameBut b b') : Leaves I a' b' := by
  rw [ha, hb]
  exact h

theorem serves_of_forall₂ {l l' : List (Action σ ι)} (hsame : List.Forall₂ SameBut l l')
    (h : ∀ a ∈ l, Serves I E P a) : ∀ b ∈ l', Serves I E P b := by
  intro b hb
  obtain ⟨a, ha, hab⟩ := (exists_sameBut hsame).2 b hb
  exact (h a ha).sameBut hab

theorem pairwise_of_forall₂ {l l' : List (Action σ ι)} (hsame : List.Forall₂ SameBut l l') :
    l.Pairwise (Leaves I) → l'.Pairwise (Leaves I) := by
  induction hsame with
  | nil => exact id
  | cons hab hrest ih =>
      intro h
      obtain ⟨hhead, htail⟩ := List.pairwise_cons.mp h
      refine List.pairwise_cons.mpr ⟨fun d hd => ?_, ih htail⟩
      obtain ⟨c, hc, hcd⟩ := (exists_sameBut hrest).2 d hd
      exact (hhead c hc).sameBut hab hcd

/-! ## A round -/

theorem serveOne_sound {i : Nat} {v : Revents} {x : ι} {a : Action σ ι} {asked : Bool} {s : σ}
    (ha : Serves I E P a) (hI : I s) (hasked : asked = true → a.wants s = true)
    (hP : P a s) :
    Outcome E (fun r => I r.2.2 ∧ SameBut a r.2.1 ∧ P r.2.1 r.2.2 ∧ (∀ b, P b s → P b r.2.2) ∧
      ∀ b, Leaves I a b → b.wants s = true → b.wants r.2.2 = true)
      (serveOne i v x a asked s) := by
  unfold serveOne
  by_cases hfailed : v.failed = true
  · rw [if_pos hfailed]
    exact ⟨hI, .refl a, hP, fun _ h => h, fun _ _ h => h⟩
  rw [if_neg hfailed]
  cases hserved : v.ready && asked with
  | false => exact ⟨hI, .refl a, hP, fun _ h => h, fun _ _ h => h⟩
  | true =>
      rw [Bool.and_eq_true] at hserved
      have hwants := hasked hserved.2
      have hserves := ha.serves x s hI hwants
      cases hcall : a.callback x s with
      | error e =>
          rw [hcall] at hserves
          exact hserves
      | ok r =>
          rw [hcall] at hserves
          obtain ⟨result, s'⟩ := r
          obtain ⟨hI', hcount, hcancel⟩ := hserves
          have hkeeps := ha.keeps x s _ hI hwants hcall
          have hleaves : ∀ b, Leaves I a b → b.wants s = true →
              b.wants s' = true := fun b hb => hb x s _ hI hwants hcall
          have hchecked : Outcome E (fun _ => True) (a.checkServed s s') := by
            unfold Action.checkServed
            split
            · exact hcount ‹_›
            · trivial
          cases result with
          | exit status => exact ⟨hI', .refl a, hkeeps a hP, hkeeps, hleaves⟩
          | cancel =>
              simp only [ok_bind, if_true]
              exact hchecked.bind fun _ _ => ⟨hI', rfl, hcancel rfl, hkeeps, hleaves⟩
          | goOn =>
              simp only [ok_bind, if_true]
              exact hchecked.bind fun _ _ => ⟨hI', .refl a, hkeeps a hP, hkeeps, hleaves⟩

theorem serve_sound (revents : Nat → Revents) (input : Nat → ι) :
    ∀ (xs : List (Action σ ι × Bool)) (i : Nat) {s : σ}, (∀ x ∈ xs, Serves I E P x.1) →
    xs.Pairwise (fun x y => Leaves I x.1 y.1) → I s →
    (∀ x ∈ xs, x.2 = true → x.1.wants s = true) → (∀ x ∈ xs, P x.1 s) →
    Outcome E (fun r => I r.2.2 ∧ List.Forall₂ SameBut (xs.map Prod.fst) r.2.1 ∧
      (∀ a ∈ r.2.1, P a r.2.2) ∧ ∀ b, P b s → P b r.2.2) (serve revents input i xs s)
  | [], i, s, _, _, hI, _, _ => ⟨hI, .nil, fun a ha => (by cases ha), fun _ h => h⟩
  | (a, asked) :: xs, i, s, hserves, hleaves, hI, hwants, hP => by
      obtain ⟨hhead, htail⟩ := List.pairwise_cons.mp hleaves
      have hmem : ∀ x ∈ xs, x ∈ (a, asked) :: xs := fun x hx => List.mem_cons_of_mem _ hx
      have hone := serveOne_sound (i := i) (v := revents i) (x := input i)
        (hserves _ List.mem_cons_self) hI (hwants _ List.mem_cons_self) (hP _ List.mem_cons_self)
      rw [serve]
      refine hone.bind ?_
      rintro ⟨exit, a', s₁⟩ ⟨hI₁, hsame, hPa, hkeep, hleft⟩
      have hP₁ : ∀ x ∈ xs, P x.1 s₁ := fun x hx => hkeep x.1 (hP x (hmem x hx))
      cases exit with
      | some e =>
          refine ⟨hI₁, .cons hsame (sameBut_self _), fun b hb => ?_, hkeep⟩
          rcases List.mem_cons.mp hb with rfl | hb
          · exact hPa
          · obtain ⟨x, hx, rfl⟩ := List.mem_map.mp hb
            exact hP₁ x hx
      | none =>
          have hrest := serve_sound revents input xs (i + 1)
            (fun x hx => hserves x (hmem x hx)) htail hI₁
            (fun x hx hasked => hleft x.1 (hhead x hx) (hwants x (hmem x hx) hasked)) hP₁
          refine hrest.bind ?_
          rintro ⟨exit, actions, s₂⟩ ⟨hI₂, hsame₂, hPs, hkeep₂⟩
          refine ⟨hI₂, .cons hsame hsame₂, fun b hb => ?_, fun b hb => hkeep₂ b (hkeep b hb)⟩
          rcases List.mem_cons.mp hb with rfl | hb
          · exact hkeep₂ _ hPa
          · exact hPs b hb

theorem wants_of_asks {a : Action σ ι} {s : σ} (h : a.asks s = true) : a.wants s = true := by
  rw [asks_eq, Bool.and_eq_true] at h
  exact h.2

theorem mem_asked {actions : List (Action σ ι)} {s : σ} {x : Action σ ι × Bool}
    (hx : x ∈ actions.map fun a => (a, a.asks s)) : x.1 ∈ actions ∧ x.2 = x.1.asks s := by
  obtain ⟨a, ha, rfl⟩ := List.mem_map.mp hx
  exact ⟨ha, rfl⟩

/-- **A round is sound.** Whatever `::poll` reports, the round keeps the invariant,
or ends with the failure of `::poll` itself or with one of the faults `E`. -/
theorem poll_sound {actions : List (Action σ ι)} {s : σ} (answer : Answer ι)
    (hserves : ∀ a ∈ actions, Serves I E P a) (hleaves : actions.Pairwise (Leaves I)) (hI : I s)
    (hP : ∀ a ∈ actions, P a s) :
    Outcome (fun e => e = .systemError "poll" ∨ E e)
      (fun r => I r.2.2 ∧ List.Forall₂ SameBut actions r.2.1 ∧ ∀ a ∈ r.2.1, P a r.2.2)
      (poll answer actions s) := by
  have hquiet : I s ∧ List.Forall₂ SameBut actions actions ∧ ∀ a ∈ actions, P a s :=
    ⟨hI, sameBut_self actions, hP⟩
  simp only [poll]
  split
  · cases answer with
    | failed => exact .inl rfl
    | timeout => exact hquiet
    | events revents input =>
        have hserve := serve_sound revents input (actions.map fun a => (a, a.asks s)) 0
          (fun x hx => hserves x.1 (mem_asked hx).1)
          (List.pairwise_map.mpr hleaves) hI
          (fun x hx hasked => wants_of_asks ((mem_asked hx).2 ▸ hasked)) (fun x hx => hP x.1 (mem_asked hx).1)
        have hfst : (actions.map fun a => (a, a.asks s)).map Prod.fst = actions := by
          rw [List.map_map]
          exact List.map_id actions
        rw [hfst] at hserve
        refine (hserve.mono (fun e he => .inr he) fun r hr => hr).bind ?_
        rintro ⟨exit, acts, s'⟩ ⟨hI', hsame, hP', -⟩
        cases exit with
        | none => exact ⟨hI', hsame, hP'⟩
        | some e => exact ⟨hI', hsame, hP'⟩
  · exact hquiet

/-- A round in which nobody is interested. -/
theorem poll_quiet {actions : List (Action σ ι)} {s : σ} (answer : Answer ι)
    (h : ∀ a ∈ actions, a.asks s = false) :
    poll answer actions s = .ok (.exit ⟨0, none⟩, actions, s) := by
  have hnone : ¬ (actions.map fun a => (a, a.asks s)).any Prod.snd = true := by
    rw [List.any_map, List.any_eq_true]
    rintro ⟨a, ha, hasks⟩
    exact absurd (h a ha) (by simpa using hasks)
  simp only [poll]
  rw [if_neg hnone]

/-! ## A round in which one descriptor is ready -/

theorem serve_idle (revents : Nat → Revents) (input : Nat → ι) :
    ∀ (xs : List (Action σ ι × Bool)) (i : Nat) (s : σ),
    (∀ j, i ≤ j → j < i + xs.length → revents j = ⟨false, false⟩) →
    serve revents input i xs s = .ok (none, xs.map Prod.fst, s)
  | [], _, _, _ => rfl
  | (a, asked) :: xs, i, s, h => by
      have hone : serveOne i (revents i) (input i) a asked s = .ok (none, a, s) := by
        rw [h i (Nat.le_refl i) (by simp), serveOne]
        rfl
      have hrest := serve_idle revents input xs (i + 1) s fun j hle hlt =>
        h j (Nat.le_of_succ_le hle) (by rw [List.length_cons]; omega)
      rw [serve, hone, ok_bind]
      simp only [hrest, ok_bind]
      rfl

/-- Only the `k`-th entry is ready. -/
def only (k : Nat) : Nat → Revents := fun j => ⟨false, j == k⟩

theorem serve_only (input : Nat → ι) {a : Action σ ι} (s s' : σ)
    (ys : List (Action σ ι × Bool)) : ∀ (xs : List (Action σ ι × Bool)) (i : Nat),
    a.callback (input (i + xs.length)) s = .ok (.goOn, s') →
    serve (only (i + xs.length)) input i (xs ++ (a, true) :: ys) s = (do
      a.checkServed s s'
      return (none, xs.map Prod.fst ++ a :: ys.map Prod.fst, s'))
  | [], i, hcall => by
      have hrest : serve (only i) input (i + 1) ys s' = .ok (none, ys.map Prod.fst, s') := by
        refine serve_idle _ _ ys (i + 1) s' fun j hle _ => ?_
        have hne : j ≠ i := by omega
        simp [only, hne]
      have hready : only i i = ⟨false, true⟩ := by simp [only]
      rw [List.length_nil, Nat.add_zero] at hcall ⊢
      rw [List.nil_append, serve, hready, serveOne, hcall]
      cases hserved : a.checkServed s s' with
      | error e => simp [hserved]
      | ok u => simp [hserved, hrest]
  | (b, asked) :: xs, i, hcall => by
      have hidle : only (i + (xs.length + 1)) i = ⟨false, false⟩ := by simp [only]
      have hone : ∀ x, serveOne i (only (i + (xs.length + 1)) i) x b asked s = .ok (none, b, s) := by
        intro x
        rw [hidle, serveOne]
        rfl
      have hindex : i + (xs.length + 1) = i + 1 + xs.length := by omega
      rw [List.length_cons, hindex] at hcall
      have hrest := serve_only input s s' ys xs (i + 1) hcall
      rw [List.length_cons, List.cons_append, serve, hone, ok_bind, hindex]
      simp only [hrest]
      cases a.checkServed s s' <;> rfl

/-- Where one action is ready and goes on, the round is its callback and the check. -/
theorem poll_only {input : Nat → ι} {xs ys : List (Action σ ι)} {a : Action σ ι} {s s' : σ}
    (hasks : a.asks s = true) (hcall : a.callback (input xs.length) s = .ok (.goOn, s')) :
    poll (.events (only xs.length) input) (xs ++ a :: ys) s = (do
      a.checkServed s s'
      return (.success, xs ++ a :: ys, s')) := by
  have hserve := serve_only input s s' (ys.map fun b => (b, b.asks s))
    (xs.map fun b => (b, b.asks s)) 0 (a := a)
    (by rw [List.length_map, Nat.zero_add]; exact hcall)
  rw [List.length_map, Nat.zero_add] at hserve
  have hany : ((xs ++ a :: ys).map fun b => (b, b.asks s)).any Prod.snd = true := by
    simp [hasks]
  simp only [poll]
  rw [if_pos hany, List.map_append, List.map_cons, hasks, hserve]
  cases a.checkServed s s' with
  | error e => rfl
  | ok u => simp [Function.comp_def]

/-! ## All rounds -/

/-- Rounds of the poller until one of them exits, as far as the answers given. -/
def rounds : List (Answer ι) → List (Action σ ι) → σ →
    Except Fault (Option Exit × List (Action σ ι) × σ)
  | [], actions, s => .ok (none, actions, s)
  | answer :: answers, actions, s => do
      let (result, actions, s) ← poll answer actions s
      match result with
      | .exit e => return (some e, actions, s)
      | .success | .timeout => rounds answers actions s

theorem rounds_sound : ∀ (answers : List (Answer ι)) {actions : List (Action σ ι)} {s : σ},
    (∀ a ∈ actions, Serves I E P a) → actions.Pairwise (Leaves I) → I s → (∀ a ∈ actions, P a s) →
    Outcome (fun e => e = .systemError "poll" ∨ E e)
      (fun r => I r.2.2 ∧ List.Forall₂ SameBut actions r.2.1 ∧ ∀ a ∈ r.2.1, P a r.2.2)
      (rounds answers actions s)
  | [], actions, s, _, _, hI, hP => ⟨hI, sameBut_self actions, hP⟩
  | answer :: answers, actions, s, hserves, hleaves, hI, hP => by
      have hpoll := poll_sound answer hserves hleaves hI hP
      rw [rounds]
      refine hpoll.bind ?_
      rintro ⟨result, acts, s₁⟩ ⟨hI₁, hsame, hP₁⟩
      have hrest := rounds_sound answers (serves_of_forall₂ hsame hserves)
        (pairwise_of_forall₂ hsame hleaves) hI₁ hP₁
      cases result with
      | exit e => exact ⟨hI₁, hsame, hP₁⟩
      | success | timeout =>
          refine hrest.mono (fun e he => he) fun r hr => ?_
          exact ⟨hr.1, sameBut_trans hsame hr.2.1, hr.2.2⟩

/-- The rule for the loop of the event loop, in which `wait_time` comes before each
round. -/
theorem internalLoop_sound {κ : Type} {waitTime : κ → σ → Except Fault σ}
    (hwait : ∀ k s, I s → Outcome E (fun s' => I s' ∧ ∀ b, P b s → P b s') (waitTime k s)) :
    ∀ (turns : List (κ × Answer ι)) {actions : List (Action σ ι)} {s : σ},
    (∀ a ∈ actions, Serves I E P a) → actions.Pairwise (Leaves I) → I s → (∀ a ∈ actions, P a s) →
    Outcome (fun e => e = .systemError "poll" ∨ E e)
      (fun r => I r.2.2 ∧ List.Forall₂ SameBut actions r.2.1 ∧ ∀ a ∈ r.2.1, P a r.2.2)
      (internalLoop waitTime turns actions s)
  | [], actions, s, _, _, hI, hP => ⟨hI, sameBut_self actions, hP⟩
  | (k, answer) :: turns, actions, s, hserves, hleaves, hI, hP => by
      rw [internalLoop]
      refine ((hwait k s hI).mono (fun e he => .inr he) fun s' h => h).bind ?_
      rintro s₀ ⟨hI₀, hkeep⟩
      refine (poll_sound answer hserves hleaves hI₀ fun a ha => hkeep a (hP a ha)).bind ?_
      rintro ⟨result, acts, s₁⟩ ⟨hI₁, hsame, hP₁⟩
      have hrest := internalLoop_sound hwait turns (serves_of_forall₂ hsame hserves)
        (pairwise_of_forall₂ hsame hleaves) hI₁ hP₁
      cases result with
      | exit e => exact ⟨hI₁, hsame, hP₁⟩
      | success | timeout =>
          refine hrest.mono (fun e he => he) fun r hr => ?_
          exact ⟨hr.1, sameBut_trans hsame hr.2.1, hr.2.2⟩

/-! ## How much is called -/

/-- How many actions the second pass calls, from the `i`-th on. -/
def served (revents : Nat → Revents) : Nat → List (Action σ ι × Bool) → Nat
  | _, [] => 0
  | i, (_, asked) :: xs => ((revents i).ready && asked).toNat + served revents (i + 1) xs

/-- How many actions a round calls. -/
def polled (answer : Answer ι) (actions : List (Action σ ι)) (s : σ) : Nat :=
  match answer with
  | .events revents _ => served revents 0 (actions.map fun a => (a, a.asks s))
  | _ => 0

/-- How many actions all rounds call. -/
def called : List (Answer ι) → List (Action σ ι) → σ → Nat
  | [], _, _ => 0
  | answer :: answers, actions, s =>
      match poll answer actions s with
      | .ok (.success, actions', s') | .ok (.timeout, actions', s') =>
          polled answer actions s + called answers actions' s'
      | _ => 0

/-- `::poll` has not failed, and no descriptor has either. -/
def Answer.Clean : Answer ι → Prop
  | .failed => False
  | .timeout => True
  | .events revents _ => ∀ i, (revents i).failed = false

/-- The action never asks for an exit, and every call of it counts. -/
def Advances (I : σ → Prop) (ν : σ → Nat) (a : Action σ ι) : Prop :=
  ∀ x s r, I s → a.wants s = true → a.callback x s = .ok r →
    ν s < ν r.2 ∧ ∀ status, r.1 ≠ .exit status

theorem Advances.sameBut {ν : σ → Nat} {a b : Action σ ι} (h : Advances I ν a) (hab : SameBut a b) :
    Advances I ν b := by
  rw [hab]
  exact h

theorem advances_of_forall₂ {ν : σ → Nat} {l l' : List (Action σ ι)}
    (hsame : List.Forall₂ SameBut l l') (h : ∀ a ∈ l, Advances I ν a) :
    ∀ b ∈ l', Advances I ν b := by
  intro b hb
  obtain ⟨a, ha, hab⟩ := (exists_sameBut hsame).2 b hb
  exact (h a ha).sameBut hab

variable {ν : σ → Nat}

/-- The turn of one action counts when it is called. -/
theorem serveOne_advances {i : Nat} {v : Revents} {x : ι} {a a' : Action σ ι} {asked : Bool}
    {s s' : σ} {e : Option Exit} (ha : Advances I ν a) (hI : I s) (hclean : v.failed = false)
    (hasked : asked = true → a.wants s = true)
    (h : serveOne i v x a asked s = .ok (e, a', s')) :
    e = none ∧ ν s + (v.ready && asked).toNat ≤ ν s' := by
  rcases serveOne_cases h with ⟨hfailed, -⟩ | ⟨hnot, rfl, -, rfl⟩ | ⟨hserved, result, hcall, hr⟩
  · rw [hclean] at hfailed
    cases hfailed
  · exact ⟨rfl, by simp [hnot]⟩
  · have hwants : a.wants s = true := by
      rw [Bool.and_eq_true] at hserved
      exact hasked hserved.2
    obtain ⟨hlt, hexit⟩ := ha x s _ hI hwants hcall
    refine ⟨?_, by rw [hserved]; exact hlt⟩
    rcases hr with ⟨status, rfl, -⟩ | ⟨-, rfl, -⟩ | ⟨-, rfl, -⟩
    · exact absurd rfl (hexit status)
    · rfl
    · rfl

theorem serve_advances {revents : Nat → Revents} {input : Nat → ι}
    (hclean : ∀ i, (revents i).failed = false) :
    ∀ {xs : List (Action σ ι × Bool)} {i : Nat} {s s' : σ} {e : Option Exit}
      {actions : List (Action σ ι)},
    (∀ x ∈ xs, Serves I E P x.1) → (∀ x ∈ xs, Advances I ν x.1) →
    xs.Pairwise (fun x y => Leaves I x.1 y.1) → I s →
    (∀ x ∈ xs, x.2 = true → x.1.wants s = true) → (∀ x ∈ xs, P x.1 s) →
    serve revents input i xs s = .ok (e, actions, s') →
    e = none ∧ ν s + served revents i xs ≤ ν s'
  | [], i, s, s', e, actions, _, _, _, _, _, _, h => by
      cases h
      exact ⟨rfl, Nat.le_refl _⟩
  | (a, asked) :: xs, i, s, s', e, actions, hserves, hadv, hleaves, hI, hwants, hP, h => by
      obtain ⟨hhead, htail⟩ := List.pairwise_cons.mp hleaves
      have hmem : ∀ x ∈ xs, x ∈ (a, asked) :: xs := fun x hx => List.mem_cons_of_mem _ hx
      have hone := serveOne_sound (i := i) (v := revents i) (x := input i)
        (hserves _ List.mem_cons_self) hI (hwants _ List.mem_cons_self) (hP _ List.mem_cons_self)
      rcases serve_cons h with ⟨e₁, a', rfl, h₁, -⟩ | ⟨a', s₁, actions', h₁, hrest, -⟩
      · have := (serveOne_advances (hadv _ List.mem_cons_self) hI (hclean i)
          (hwants _ List.mem_cons_self) h₁).1
        cases this
      · have hcount : ν s + ((revents i).ready && asked).toNat ≤ ν s₁ :=
          (serveOne_advances (hadv _ List.mem_cons_self) hI (hclean i)
            (hwants _ List.mem_cons_self) h₁).2
        rw [h₁] at hone
        obtain ⟨hI₁, -, -, hkeep, hleft⟩ := hone
        obtain ⟨he, hle⟩ : e = none ∧ ν s₁ + served revents (i + 1) xs ≤ ν s' :=
          serve_advances hclean (fun x hx => hserves x (hmem x hx))
            (fun x hx => hadv x (hmem x hx)) htail hI₁
            (fun x hx hasked => hleft x.1 (hhead x hx) (hwants x (hmem x hx) hasked))
            (fun x hx => hkeep x.1 (hP x (hmem x hx))) hrest
        refine ⟨he, ?_⟩
        rw [served]
        omega

/-- A clean round exits only when nobody is interested. -/
theorem poll_advances (answer : Answer ι) {actions acts : List (Action σ ι)} {s s' : σ}
    {result : Result} (hclean : answer.Clean) (hserves : ∀ a ∈ actions, Serves I E P a)
    (hadv : ∀ a ∈ actions, Advances I ν a) (hleaves : actions.Pairwise (Leaves I)) (hI : I s)
    (hP : ∀ a ∈ actions, P a s) (h : poll answer actions s = .ok (result, acts, s')) :
    (result = .exit ⟨0, none⟩ ∧ acts = actions ∧ s' = s ∧ ∀ a ∈ actions, a.asks s = false) ∨
      ((result = .success ∨ result = .timeout) ∧ ν s + polled answer actions s ≤ ν s') := by
  simp only [poll] at h
  split at h
  · right
    cases answer with
    | failed => exact hclean.elim
    | timeout =>
        cases h
        exact ⟨.inr rfl, Nat.le_refl _⟩
    | events revents input =>
        obtain ⟨⟨e, acts₁, s₁⟩, hserve, hret⟩ := bind_eq_ok.mp h
        obtain ⟨rfl, hle⟩ := serve_advances hclean
          (fun x hx => hserves x.1 (mem_asked hx).1) (fun x hx => hadv x.1 (mem_asked hx).1)
          (List.pairwise_map.mpr hleaves) hI
          (fun x hx hasked => wants_of_asks ((mem_asked hx).2 ▸ hasked))
          (fun x hx => hP x.1 (mem_asked hx).1) hserve
        cases hret
        exact ⟨.inl rfl, hle⟩
  · next hnone =>
      left
      cases h
      refine ⟨rfl, rfl, rfl, fun a ha => ?_⟩
      rw [← Bool.not_eq_true]
      intro hasks
      refine hnone (List.any_eq_true.mpr ⟨(a, true), ?_, rfl⟩)
      exact List.mem_map.mpr ⟨a, ha, by rw [hasks]⟩

/-- **Clean rounds end when nobody is interested**, and what they call adds up. -/
theorem rounds_advance : ∀ {answers : List (Answer ι)} {actions acts : List (Action σ ι)} {s s' : σ}
    {e : Option Exit}, (∀ answer ∈ answers, answer.Clean) → (∀ a ∈ actions, Serves I E P a) →
    (∀ a ∈ actions, Advances I ν a) → actions.Pairwise (Leaves I) → I s →
    (∀ a ∈ actions, P a s) → rounds answers actions s = .ok (e, acts, s') →
    (e = none ∨ e = some ⟨0, none⟩ ∧ ∀ a ∈ acts, a.asks s' = false) ∧
      ν s + called answers actions s ≤ ν s'
  | [], actions, acts, s, s', e, _, _, _, _, _, _, h => by
      cases h
      exact ⟨.inl rfl, Nat.le_refl _⟩
  | answer :: answers, actions, acts, s, s', e, hclean, hserves, hadv, hleaves, hI, hP, h => by
      obtain ⟨⟨result, acts₁, s₁⟩, hpoll, hrest⟩ := bind_eq_ok.mp h
      have hsound := poll_sound answer hserves hleaves hI hP
      rw [hpoll] at hsound
      have hI₁ : I s₁ := hsound.1
      have hsame : List.Forall₂ SameBut actions acts₁ := hsound.2.1
      have hP₁ : ∀ a ∈ acts₁, P a s₁ := hsound.2.2
      have hmem : ∀ b ∈ answers, b.Clean := fun b hb => hclean b (List.mem_cons_of_mem _ hb)
      rcases poll_advances answer (hclean answer List.mem_cons_self) hserves hadv hleaves hI hP hpoll with
        ⟨rfl, rfl, rfl, hquiet⟩ | ⟨hresult, hle⟩
      · cases hrest
        refine ⟨.inr ⟨rfl, hquiet⟩, ?_⟩
        simp only [called, hpoll]
        omega
      · have hgo : rounds answers acts₁ s₁ = .ok (e, acts, s') := by
          rcases hresult with rfl | rfl <;> exact hrest
        have hcalled : called (answer :: answers) actions s
            = polled answer actions s + called answers acts₁ s₁ := by
          rcases hresult with rfl | rfl <;> simp only [called, hpoll]
        obtain ⟨hexit, hle'⟩ := rounds_advance hmem (serves_of_forall₂ hsame hserves)
          (advances_of_forall₂ hsame hadv) (pairwise_of_forall₂ hsame hleaves) hI₁ hP₁ hgo
        exact ⟨hexit, by omega⟩

end Poller

end Mahimahi
