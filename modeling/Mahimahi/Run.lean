import Mathlib.Tactic.TypeStar

/-!
# Runs of a transition system

A system is a function `step : σ → α → Option σ`: `step s a` is the state
after the event `a`, or `none` when `a` cannot happen in `s`. A run is a
list of events; it ends early at the first one that cannot happen.

- `Always step P s as`: the run of `as` from `s` only passes through states
  that satisfy `P`, the first and the last included.
- `EachStep step G s as`: every event that does happen in that run happens
  in a state in which `G` allows it.

`always_of_eachStep` is the invariant rule under a condition on the steps,
and `always_iff_eachStep` says when the condition is exact: a step that
breaks it leads to a state without `P`.
-/

namespace Mahimahi

variable {σ α : Type*}

/-- `P` holds in every state the run passes through. -/
def Always (step : σ → α → Option σ) (P : σ → Prop) : σ → List α → Prop
  | s, [] => P s
  | s, a :: as => P s ∧ ∀ s' ∈ step s a, Always step P s' as

/-- Every event of the run happens under the condition `G`. -/
def EachStep (step : σ → α → Option σ) (G : σ → α → Prop) : σ → List α → Prop
  | _, [] => True
  | s, a :: as => ∀ s' ∈ step s a, G s a ∧ EachStep step G s' as

instance decidableAlways (step : σ → α → Option σ) (P : σ → Prop) [DecidablePred P] :
    ∀ s as, Decidable (Always step P s as)
  | s, [] => inferInstanceAs (Decidable (P s))
  | s, a :: as =>
      have : DecidablePred fun s' => Always step P s' as := fun s' => decidableAlways step P s' as
      inferInstanceAs (Decidable (P s ∧ ∀ s' ∈ step s a, Always step P s' as))

instance decidableEachStep (step : σ → α → Option σ) (G : σ → α → Prop)
    [∀ s, DecidablePred (G s)] : ∀ s as, Decidable (EachStep step G s as)
  | _, [] => isTrue trivial
  | s, a :: as =>
      have : DecidablePred fun s' => G s a ∧ EachStep step G s' as := fun s' =>
        have := decidableEachStep step G s' as
        inferInstance
      inferInstanceAs (Decidable (∀ s' ∈ step s a, G s a ∧ EachStep step G s' as))

section

variable {step : σ → α → Option σ} {P I : σ → Prop} {G : σ → α → Prop}

theorem Always.head {s : σ} {as : List α} (h : Always step P s as) : P s := by
  cases as with
  | nil => exact h
  | cons a as => exact h.1

theorem Always.last : ∀ {s t : σ} {as : List α}, Always step P s as → as.foldlM step s = some t → P t
  | _, _, [], h, hrun => by
      cases hrun
      exact h
  | s, t, a :: as, h, hrun => by
      rw [List.foldlM_cons] at hrun
      obtain ⟨s', hs', hrun⟩ := Option.bind_eq_some_iff.mp hrun
      exact (h.2 s' hs').last hrun

theorem EachStep.and {H : σ → α → Prop} : ∀ {s : σ} {as : List α}, EachStep step G s as →
    EachStep step H s as → EachStep step (fun s a => G s a ∧ H s a) s as
  | _, [], _, _ => trivial
  | _, _ :: _, hG, hH => fun s' hs' =>
      ⟨⟨(hG s' hs').1, (hH s' hs').1⟩, (hG s' hs').2.and (hH s' hs').2⟩

theorem eachStep_true (step : σ → α → Option σ) : ∀ (s : σ) (as : List α),
    EachStep step (fun _ _ => True) s as
  | _, [] => trivial
  | _, _ :: as => fun s' _ => ⟨trivial, eachStep_true step s' as⟩

theorem eachStep_of_forall {H : α → Prop} : ∀ {s : σ} {as : List α}, (∀ a ∈ as, H a) →
    EachStep step (fun _ a => H a) s as
  | _, [], _ => trivial
  | _, a :: _, h => fun _ _ =>
      ⟨h a List.mem_cons_self, eachStep_of_forall fun b hb => h b (List.mem_cons_of_mem _ hb)⟩

theorem EachStep.cons {s t : σ} {a : α} {as : List α} (hstep : step s a = some t) (hG : G s a)
    (hrest : EachStep step G t as) : EachStep step G s (a :: as) := by
  intro s' hs'
  rw [hstep] at hs'
  cases hs'
  exact ⟨hG, hrest⟩

/-- The invariant rule: what every allowed step preserves holds all along a
run of allowed steps. -/
theorem always_of_eachStep (hP : ∀ s, I s → P s)
    (hstep : ∀ s a s', I s → step s a = some s' → G s a → I s') :
    ∀ {s : σ} {as : List α}, I s → EachStep step G s as → Always step P s as
  | _, [], hI, _ => hP _ hI
  | s, a :: as, hI, h => by
      refine ⟨hP s hI, fun s' hs' => ?_⟩
      obtain ⟨hG, hrest⟩ := h s' hs'
      exact always_of_eachStep hP hstep (hstep s a s' hI hs' hG) hrest

/-- What every allowed step preserves holds where a run of allowed steps ends. -/
theorem invariant_of_eachStep (hstep : ∀ s a s', I s → step s a = some s' → G s a → I s') :
    ∀ {s t : σ} {as : List α}, I s → EachStep step G s as → as.foldlM step s = some t → I t
  | _, _, [], hI, _, hrun => by
      cases hrun
      exact hI
  | s, t, a :: as, hI, h, hrun => by
      rw [List.foldlM_cons] at hrun
      obtain ⟨s', hs', hrun⟩ := Option.bind_eq_some_iff.mp hrun
      obtain ⟨hG, hrest⟩ := h s' hs'
      exact invariant_of_eachStep hstep (hstep s a s' hI hs' hG) hrest hrun

/-- The condition is exact when a step without it leads out of `P`. -/
theorem always_iff_eachStep (hP : ∀ s, I s → P s)
    (hstep : ∀ s a s', I s → step s a = some s' → G s a → I s')
    (hexact : ∀ s a s', I s → step s a = some s' → P s' → G s a)
    {s : σ} {as : List α} (hI : I s) : Always step P s as ↔ EachStep step G s as := by
  refine ⟨fun h => ?_, always_of_eachStep hP hstep hI⟩
  induction as generalizing s with
  | nil => trivial
  | cons a as ih =>
      intro s' hs'
      have hrest := h.2 s' hs'
      have hG := hexact s a s' hI hs' hrest.head
      exact ⟨hG, ih (hstep s a s' hI hs' hG) hrest⟩

/-- The same under a condition on the events, whatever state they come in. -/
theorem always_iff_eachStep_of {H : α → Prop} (hP : ∀ s, I s → P s)
    (hstep : ∀ s a s', I s → H a → step s a = some s' → G s a → I s')
    (hexact : ∀ s a s', I s → H a → step s a = some s' → P s' → G s a) :
    ∀ {s : σ} {as : List α}, I s → (∀ a ∈ as, H a) → (Always step P s as ↔ EachStep step G s as)
  | s, [], hI, _ => ⟨fun _ => trivial, fun _ => hP s hI⟩
  | s, a :: as, hI, has => by
      have ha := has a List.mem_cons_self
      have hrest : ∀ {s'}, step s a = some s' → G s a →
          (Always step P s' as ↔ EachStep step G s' as) := fun hs' hG =>
        always_iff_eachStep_of hP hstep hexact (hstep s a _ hI ha hs' hG)
          fun b hb => has b (List.mem_cons_of_mem _ hb)
      constructor
      · intro h s' hs'
        have hG := hexact s a s' hI ha hs' (h.2 s' hs').head
        exact ⟨hG, (hrest hs' hG).mp (h.2 s' hs')⟩
      · intro h
        refine ⟨hP s hI, fun s' hs' => ?_⟩
        obtain ⟨hG, hbehind⟩ := h s' hs'
        exact (hrest hs' hG).mpr hbehind

end

end Mahimahi
