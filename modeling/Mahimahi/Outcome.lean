import Mahimahi.Loop
import Mahimahi.Machine

/-!
# How a computation ends

`Outcome E Q x` says of a fallible computation how it may end: with one of the
faults `E`, or with a result for which `Q`. The rules follow the shape of the
computation: `Outcome.bind` for one after the other, `Outcome.assertThat` for an
assertion that holds, `Outcome.loop` for a loop with an invariant, `Outcome.mono` for what follows from it.
-/

namespace Mahimahi

variable {ε α β : Type}

def Outcome (E : ε → Prop) (Q : α → Prop) : Except ε α → Prop
  | .error e => E e
  | .ok a => Q a

variable {E E' : ε → Prop} {Q Q' : α → Prop} {R : β → Prop}

theorem Outcome.of_ok {x : Except ε α} {a : α} (h : Outcome E Q x) (hx : x = .ok a) : Q a := by
  rw [hx] at h
  exact h

theorem Outcome.of_error {x : Except ε α} {e : ε} (h : Outcome E Q x) (hx : x = .error e) : E e := by
  rw [hx] at h
  exact h

/-- What is said of every end is said of the outcome. -/
theorem Outcome.intro {x : Except ε α} (hE : ∀ e, x = .error e → E e)
    (hQ : ∀ a, x = .ok a → Q a) : Outcome E Q x := by
  cases x with
  | error e => exact hE e rfl
  | ok a => exact hQ a rfl

theorem Outcome.mono {x : Except ε α} (h : Outcome E Q x) (hE : ∀ e, E e → E' e)
    (hQ : ∀ a, Q a → Q' a) : Outcome E' Q' x := by
  cases x with
  | error e => exact hE e h
  | ok a => exact hQ a h

/-- One computation after the other. -/
theorem Outcome.bind {x : Except ε α} {f : α → Except ε β} (h : Outcome E Q x)
    (hf : ∀ a, Q a → Outcome E R (f a)) : Outcome E R (x >>= f) := by
  cases x with
  | error e => exact h
  | ok a => exact hf a h

/-- A loop whose turns keep `I`, and that may run out of turns. -/
theorem Outcome.loop {σ ρ : Type} {stuck : ε} {body : σ → Except ε (σ ⊕ ρ)} {I : σ → Prop}
    {S : ρ → Prop} (hstuck : E stuck)
    (hbody : ∀ s, I s → Outcome E (Sum.elim I S) (body s)) :
    ∀ (n : Nat) {s : σ}, I s → Outcome E S (Mahimahi.loop stuck body n s)
  | 0, _, _ => hstuck
  | n + 1, s, hs => by
      have hturn := hbody s hs
      rw [Mahimahi.loop]
      cases hb : body s with
      | error e => exact hturn.of_error hb
      | ok r =>
          cases r with
          | inl s' => exact Outcome.loop hstuck hbody n (hturn.of_ok hb)
          | inr r => exact hturn.of_ok hb

theorem Outcome.assertThat {E : Fault → Prop} {cond : Bool} {expr : String}
    {f : Unit → Except Fault β} (h : cond = true) (hf : Outcome E R (f ())) :
    Outcome E R (Mahimahi.assertThat cond expr >>= f) := by
  rw [h]
  exact hf

end Mahimahi
