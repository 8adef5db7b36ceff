import Mathlib.Tactic.TypeStar

/-!
# Loops with a fallible body

A loop turns a body `σ → Except ε (σ ⊕ ρ)` over and over: `.inl s'` goes
round again from `s'`, `.inr r` leaves the loop with the result `r`, an
error leaves it with the error. Two views of the same loop:

- `Exits body s o` is the fuel-free one: started in `s`, the loop comes to
  an end with outcome `o`. It is functional (`Exits.unique`) and carries
  the induction principles (`Exits.invariant`, `Exits.of_variant`).
- `loop stuck body n s` is the executable one: at most `n` turns, and the
  outcome `stuck` when they do not suffice. `exits_loop` says when they
  do: some measure that drops on every turn starts below `n`.

`whileDo` is the special case of a loop whose test stands in front. Its
own law is `Exits.while_split`: running a loop with a stronger test first
does not change what the loop with the weaker test comes to.
-/

namespace Mahimahi

variable {ε σ ρ : Type*}

/-! ## The two views -/

/-- At most `n` turns of `body`; `stuck` when `n` turns do not reach the end. -/
def loop (stuck : ε) (body : σ → Except ε (σ ⊕ ρ)) : Nat → σ → Except ε ρ
  | 0, _ => .error stuck
  | n + 1, s =>
      match body s with
      | .error e => .error e
      | .ok (.inl s') => loop stuck body n s'
      | .ok (.inr r) => .ok r

/-- The turns that go round again, of the first `n`: the state before and
after each. -/
def turns (body : σ → Except ε (σ ⊕ ρ)) : Nat → σ → List (σ × σ)
  | 0, _ => []
  | n + 1, s =>
      match body s with
      | .ok (.inl s') => (s, s') :: turns body n s'
      | _ => []

/-- The states in which the first `n` turns begin. -/
def visited (body : σ → Except ε (σ ⊕ ρ)) : Nat → σ → List σ
  | 0, _ => []
  | n + 1, s =>
      match body s with
      | .ok (.inl s') => s :: visited body n s'
      | _ => [s]

/-- The loop started in `s` comes to an end, with outcome `o`. -/
inductive Exits (body : σ → Except ε (σ ⊕ ρ)) : σ → Except ε ρ → Prop where
  | error {s e} : body s = .error e → Exits body s (.error e)
  | leave {s r} : body s = .ok (.inr r) → Exits body s (.ok r)
  | again {s s' o} : body s = .ok (.inl s') → Exits body s' o → Exits body s o

/-- The states in which a turn of the loop started in `s` begins. -/
inductive Visits (body : σ → Except ε (σ ⊕ ρ)) : σ → σ → Prop where
  | refl (s) : Visits body s s
  | again {s s' t} : body s = .ok (.inl s') → Visits body s' t → Visits body s t

section

variable {body : σ → Except ε (σ ⊕ ρ)}

theorem Exits.unique {s : σ} {o o' : Except ε ρ} (h : Exits body s o)
    (h' : Exits body s o') : o = o' := by
  induction h with
  | error hb =>
      cases h' with
      | error hb' => rw [hb] at hb'; cases hb'; rfl
      | leave hb' => rw [hb] at hb'; cases hb'
      | again hb' _ => rw [hb] at hb'; cases hb'
  | leave hb =>
      cases h' with
      | error hb' => rw [hb] at hb'; cases hb'
      | leave hb' => rw [hb] at hb'; cases hb'; rfl
      | again hb' _ => rw [hb] at hb'; cases hb'
  | again hb _ ih =>
      cases h' with
      | error hb' => rw [hb] at hb'; cases hb'
      | leave hb' => rw [hb] at hb'; cases hb'
      | again hb' hr => rw [hb] at hb'; cases hb'; exact ih hr

theorem Visits.trans {s t u : σ} (h : Visits body s t) (h' : Visits body t u) :
    Visits body s u := by
  induction h with
  | refl => exact h'
  | again hb _ ih => exact .again hb (ih h')

/-- An outcome reached from a visited state is the outcome of the whole loop. -/
theorem Visits.exits {s t : σ} {o : Except ε ρ} (h : Visits body s t)
    (ho : Exits body t o) : Exits body s o := by
  induction h with
  | refl => exact ho
  | again hb _ ih => exact .again hb (ih ho)

/-- The last turn of a loop that comes to an end. -/
theorem Exits.last {s : σ} {o : Except ε ρ} (h : Exits body s o) :
    ∃ t, Visits body s t ∧
      ((∃ e, body t = .error e ∧ o = .error e) ∨ ∃ r, body t = .ok (.inr r) ∧ o = .ok r) := by
  induction h with
  | error hb => exact ⟨_, .refl _, .inl ⟨_, hb, rfl⟩⟩
  | leave hb => exact ⟨_, .refl _, .inr ⟨_, hb, rfl⟩⟩
  | again hb _ ih =>
      obtain ⟨t, hv, hlast⟩ := ih
      exact ⟨t, .again hb hv, hlast⟩

/-- A loop that ends before the bound visits no other states. -/
theorem Visits.mem_visited {s t : σ} (h : Visits body s t) {n : Nat}
    (hn : (visited body n s).length < n) : t ∈ visited body n s := by
  induction h generalizing n with
  | refl s =>
      cases n with
      | zero => exact absurd hn (Nat.not_lt_zero _)
      | succ n =>
          rw [visited]
          split <;> exact List.mem_cons_self
  | again hb _ ih =>
      cases n with
      | zero => exact absurd hn (Nat.not_lt_zero _)
      | succ n =>
          simp only [visited, hb, List.length_cons] at hn ⊢
          exact List.mem_cons_of_mem _ (ih (by omega))

/-- Two loops side by side: where every turn of the one is, seen through `f`,
a turn of the other, the states that it visits are visited by the other too.
The turns may need a condition `G` that holds wherever the other one goes. -/
theorem Visits.map {ε' σ' ρ' : Type*} {b : σ' → Except ε' (σ' ⊕ ρ')} {f : σ → σ'}
    {G : σ' → Prop}
    (hagain : ∀ s s', G (f s) → body s = .ok (.inl s') → b (f s) = .ok (.inl (f s')))
    {s t : σ} (h : Visits body s t) (hG : ∀ u, Visits b (f s) u → G u) :
    Visits b (f s) (f t) := by
  induction h with
  | refl => exact .refl _
  | again hb _ ih =>
      have hb' := hagain _ _ (hG _ (.refl _)) hb
      exact .again hb' (ih fun u hu => hG u (.again hb' hu))

/-! ## Invariants and variants -/

/-- The invariant rule: what every turn preserves, and the last turn turns
into `Q`, holds of the result. -/
theorem Exits.invariant {I : σ → Prop} {Q : ρ → Prop}
    (hagain : ∀ s s', I s → body s = .ok (.inl s') → I s')
    (hleave : ∀ s r, I s → body s = .ok (.inr r) → Q r)
    {s : σ} {o : Except ε ρ} (h : Exits body s o) (hI : I s) :
    ∀ r, o = .ok r → Q r := by
  induction h with
  | error _ => intro r hr; cases hr
  | leave hb => intro r hr; cases hr; exact hleave _ _ hI hb
  | again hb _ ih => exact ih (hagain _ _ hI hb)

theorem Visits.invariant {I : σ → Prop}
    (hagain : ∀ s s', I s → body s = .ok (.inl s') → I s')
    {s t : σ} (h : Visits body s t) (hI : I s) : I t := by
  induction h with
  | refl => exact hI
  | again hb _ ih => exact ih (hagain _ _ hI hb)

/-- The invariant rule with the turns taken so far: what holds of the turns
before and of a state carries over when a turn is added to them. -/
theorem loop_turns {stuck : ε} {I : List (σ × σ) → σ → Prop} {Q : List (σ × σ) → ρ → Prop}
    (hagain : ∀ ts s s', I ts s → body s = .ok (.inl s') → I (ts ++ [(s, s')]) s')
    (hleave : ∀ ts s r, I ts s → body s = .ok (.inr r) → Q ts r) :
    ∀ {n : Nat} {ts : List (σ × σ)} {s : σ} {r : ρ}, I ts s → loop stuck body n s = .ok r →
    Q (ts ++ turns body n s) r
  | 0, _, _, _, _, h => by cases h
  | n + 1, ts, s, r, hI, h => by
      rw [loop] at h
      rw [turns]
      cases hb : body s with
      | error e => rw [hb] at h; cases h
      | ok t =>
          rw [hb] at h
          cases t with
          | inl s' => simpa using loop_turns hagain hleave (hagain ts s s' hI hb) h
          | inr r' =>
              cases h
              simpa using hleave ts s r hI hb

/-- The variant rule: a measure that drops on every turn bounds the turns,
and any larger bound gives the loop's own outcome. -/
theorem exits_loop {stuck : ε} {I : σ → Prop} {μ : σ → Nat}
    (hstep : ∀ s s', I s → body s = .ok (.inl s') → I s' ∧ μ s' < μ s) :
    ∀ {n : Nat} {s : σ}, I s → μ s < n → Exits body s (loop stuck body n s)
  | 0, _, _, hn => absurd hn (Nat.not_lt_zero _)
  | n + 1, s, hI, hn => by
      rw [loop]
      cases hb : body s with
      | error e => exact .error hb
      | ok t =>
          cases t with
          | inl s' =>
              obtain ⟨hI', hμ⟩ := hstep s s' hI hb
              exact .again hb (exits_loop hstep hI' (by omega))
          | inr r => exact .leave hb

/-- The rule for total correctness: every turn either drops the measure and
keeps the invariant, or leaves with a result that satisfies `Q`. -/
theorem loop_total (stuck : ε) {I : σ → Prop} {Q : ρ → Prop} {μ : σ → Nat}
    (hstep : ∀ s, I s → (∃ s', body s = .ok (.inl s') ∧ I s' ∧ μ s' < μ s)
      ∨ ∃ r, body s = .ok (.inr r) ∧ Q r) :
    ∀ {n : Nat} {s : σ}, I s → μ s < n → ∃ r, loop stuck body n s = .ok r ∧ Q r
  | 0, _, _, hn => absurd hn (Nat.not_lt_zero _)
  | n + 1, s, hI, hn => by
      rcases hstep s hI with ⟨s', hb, hI', hμ⟩ | ⟨r, hb, hQ⟩
      · rw [loop, hb]
        exact loop_total stuck hstep hI' (by omega)
      · rw [loop, hb]
        exact ⟨r, rfl, hQ⟩

/-- A result other than `stuck` is the loop's own outcome, whatever the bound. -/
theorem exits_of_loop_ok {stuck : ε} : ∀ {n : Nat} {s : σ} {r : ρ},
    loop stuck body n s = .ok r → Exits body s (.ok r)
  | 0, _, _, h => by cases h
  | n + 1, s, r, h => by
      rw [loop] at h
      cases hb : body s with
      | error e => rw [hb] at h; cases h
      | ok t =>
          rw [hb] at h
          cases t with
          | inl s' => exact .again hb (exits_of_loop_ok h)
          | inr r' => cases h; exact .leave hb

/-- Two bodies that agree wherever the loop of the first one goes. -/
theorem loop_congr {stuck : ε} {body' : σ → Except ε (σ ⊕ ρ)} : ∀ (n : Nat) {s : σ},
    (∀ t, Visits body s t → body' t = body t) → loop stuck body' n s = loop stuck body n s
  | 0, _, _ => rfl
  | n + 1, s, heq => by
      rw [loop, loop, heq s (.refl s)]
      cases hb : body s with
      | error e => rfl
      | ok t =>
          cases t with
          | inl s' => exact loop_congr n fun u hu => heq u (.again hb hu)
          | inr r => rfl

/-- A loop whose turns are those of another one, seen through `f`. -/
theorem loop_map {ε σ τ : Type} {stuck : ε} {body : σ → Except ε (σ ⊕ σ)}
    {body' : τ → Except ε (τ ⊕ τ)} {f : σ → τ}
    (hbody : ∀ s, body' (f s) = Sum.map f f <$> body s) :
    ∀ (n : Nat) (s : σ), loop stuck body' n (f s) = f <$> loop stuck body n s
  | 0, _ => rfl
  | n + 1, s => by
      rw [loop, loop, hbody]
      cases body s with
      | error e => rfl
      | ok t =>
          cases t with
          | inl s' => exact loop_map hbody n s'
          | inr r => rfl

end

/-! ## Loops with the test in front -/

/-- `while ( cond ) body`, as the body of a loop. -/
def whileDo (cond : σ → Bool) (body : σ → Except ε σ) (s : σ) : Except ε (σ ⊕ σ) :=
  if cond s then (body s).map .inl else .ok (.inr s)

section

variable {cond : σ → Bool} {body : σ → Except ε σ}

theorem whileDo_again {s s' : σ} :
    whileDo cond body s = .ok (.inl s') ↔ cond s = true ∧ body s = .ok s' := by
  unfold whileDo
  split
  · next hc => cases hb : body s <;> simp [Except.map, hc]
  · next hc => simp [hc]

theorem whileDo_leave {s r : σ} :
    whileDo cond body s = .ok (.inr r) ↔ cond s = false ∧ r = s := by
  unfold whileDo
  split
  · next hc => cases hb : body s <;> simp [Except.map, hc]
  · next hc => simp [hc, eq_comm]

theorem whileDo_error {s : σ} {e : ε} :
    whileDo cond body s = .error e ↔ cond s = true ∧ body s = .error e := by
  unfold whileDo
  split
  · next hc => cases hb : body s <;> simp [Except.map, hc]
  · next hc => simp [hc]

/-- The state that a while loop leaves is one that it has visited. -/
theorem Exits.while_visits {s r : σ} (h : Exits (whileDo cond body) s (.ok r)) :
    Visits (whileDo cond body) s r := by
  obtain ⟨t, hv, ⟨e, -, he⟩ | ⟨r', hb, hr⟩⟩ := h.last
  · cases he
  · cases hr
    obtain ⟨-, rfl⟩ := whileDo_leave.mp hb
    exact hv

theorem Visits.while_weaken {cond₂ : σ → Bool} (hweak : ∀ s, cond s = true → cond₂ s = true)
    {s t : σ} (h : Visits (whileDo cond body) s t) : Visits (whileDo cond₂ body) s t := by
  induction h with
  | refl => exact .refl _
  | again hb _ ih =>
      obtain ⟨hc, hb⟩ := whileDo_again.mp hb
      exact .again (whileDo_again.mpr ⟨hweak _ hc, hb⟩) ih

/-- Running the loop under a stronger test first changes nothing: where it
fails, the loop under the weaker test fails in the same way, and where it
ends, the weaker loop can be taken up from there. -/
theorem Exits.while_split {cond₁ cond₂ : σ → Bool}
    (hweak : ∀ s, cond₁ s = true → cond₂ s = true)
    {s : σ} {o : Except ε σ} (h : Exits (whileDo cond₁ body) s o) :
    (∀ e, o = .error e → Exits (whileDo cond₂ body) s (.error e)) ∧
      ∀ r, o = .ok r → ∀ o', Exits (whileDo cond₂ body) r o' → Exits (whileDo cond₂ body) s o' := by
  induction h with
  | error hb =>
      obtain ⟨hc, hb⟩ := whileDo_error.mp hb
      refine ⟨fun e he => ?_, fun _ hr => absurd hr (by simp)⟩
      cases he
      exact .error (whileDo_error.mpr ⟨hweak _ hc, hb⟩)
  | leave hb =>
      obtain ⟨-, rfl⟩ := whileDo_leave.mp hb
      refine ⟨fun _ he => absurd he (by simp), fun r hr o' ho => ?_⟩
      cases hr
      exact ho
  | again hb _ ih =>
      obtain ⟨hc, hb⟩ := whileDo_again.mp hb
      have hagain := whileDo_again.mpr ⟨hweak _ hc, hb⟩
      exact ⟨fun e he => .again hagain (ih.1 e he), fun r hr o' ho => .again hagain (ih.2 r hr o' ho)⟩

end

end Mahimahi
