/-
Runs of a step function that may refuse an action and that reports events
when it takes one. A run carries its history (the events so far), and a
guard may look at it: "in every run whose steps all meet a condition" is a
run under that condition's guard.
-/
import Mathlib.Data.List.Basic

namespace StepSys

variable {σ α ε : Type}

/-- `Runs step ok s₀ h s`: from `s₀`, steps each allowed by `ok` lead to `s`
and report `h`. -/
inductive Runs (step : σ → α → Option (List ε × σ)) (ok : List ε → σ → α → Prop) (s₀ : σ) : List ε → σ → Prop
  | start : Runs step ok s₀ [] s₀
  | next {h s a es s'} : Runs step ok s₀ h s → ok h s a → step s a = some (es, s') →
      Runs step ok s₀ (h ++ es) s'

/-- The guard that allows every step. -/
def free : List ε → σ → α → Prop := fun _ _ _ => True

instance : ∀ h s a, Decidable (free (σ := σ) (α := α) (ε := ε) h s a) := fun _ _ _ => .isTrue trivial

variable {step : σ → α → Option (List ε × σ)} {ok : List ε → σ → α → Prop} {s₀ s : σ} {h : List ε}

/-- What holds at the start and survives every allowed step holds in every
state reached, with its history. -/
theorem Runs.invariant (hr : Runs step ok s₀ h s) (I : List ε → σ → Prop) (h₀ : I [] s₀)
    (keep : ∀ {h s a es s'}, I h s → ok h s a → step s a = some (es, s') → I (h ++ es) s') : I h s := by
  induction hr with
  | start => exact h₀
  | next _ hok hs ih => exact keep ih hok hs

/-- The same for a property of the state alone. -/
theorem Runs.invariant_state (hr : Runs step ok s₀ h s) (I : σ → Prop) (h₀ : I s₀)
    (keep : ∀ {h s a es s'}, I s → ok h s a → step s a = some (es, s') → I s') : I s :=
  hr.invariant (fun _ s => I s) h₀ keep

/-- Running a list of actions, as long as each is allowed and taken. -/
def exec (step : σ → α → Option (List ε × σ)) (ok : List ε → σ → α → Prop) [∀ h s a, Decidable (ok h s a)] :
    List ε → σ → List α → Option (List ε × σ)
  | h, s, [] => some (h, s)
  | h, s, a :: as =>
    if ok h s a then
      match step s a with
      | some (es, s') => exec step ok (h ++ es) s' as
      | none => none
    else none

theorem Runs.exec [∀ h s a, Decidable (ok h s a)] {as : List α} {h' : List ε} {s' : σ}
    (hr : Runs step ok s₀ h s) (he : StepSys.exec step ok h s as = some (h', s')) :
    Runs step ok s₀ h' s' := by
  induction as generalizing h s with
  | nil =>
    simp only [StepSys.exec, Option.some.injEq, Prod.mk.injEq] at he
    obtain ⟨rfl, rfl⟩ := he
    exact hr
  | cons a as ih =>
    simp only [StepSys.exec] at he
    split at he
    · next hok =>
      split at he
      · next es s₁ hs => exact ih (hr.next hok hs) he
      · cases he
    · cases he

/-- A list of actions that runs to a state with a property is a run to such a state. -/
theorem Runs.of_exec (step : σ → α → Option (List ε × σ)) (ok : List ε → σ → α → Prop)
    [∀ h s a, Decidable (ok h s a)] (s₀ : σ) (as : List α) (P : List ε → σ → Bool)
    (he : (StepSys.exec step ok [] s₀ as).any (fun r => P r.1 r.2) = true) :
    ∃ h s, Runs step ok s₀ h s ∧ P h s = true := by
  obtain ⟨⟨h, s⟩, hr, hP⟩ := (Option.any_eq_true _ _).mp he
  exact ⟨h, s, Runs.start.exec hr, hP⟩

end StepSys
