import Mathlib

/-! Runs of steps that may fail. -/

namespace SelfPropelled.Library

section
variable {ε σ : Type*} {step : σ → ε → Option σ} {K : σ → Prop} {xs : List ε} {s s' : σ}

theorem kept_foldlM (keeps : ∀ s x s', K s → step s x = some s' → K s') (held : K s)
    (done : xs.foldlM step s = some s') : K s' := by
  induction xs generalizing s with
  | nil =>
    cases done
    exact held
  | cons x xs ih =>
    obtain ⟨s₁,first,rest⟩ := Option.bind_eq_some_iff.mp done
    exact ih (keeps s x s₁ held first) rest

/-- Where whether a step fails depends on its input only, a run fails if one of its steps does. -/
theorem foldlM_isSome {P : ε → Prop} (keeps : ∀ s x s', K s → step s x = some s' → K s')
    (one : ∀ x ∈ xs, ∀ s, K s → ((step s x).isSome = true ↔ P x)) (held : K s) :
    (xs.foldlM step s).isSome = true ↔ ∀ x ∈ xs, P x := by
  induction xs generalizing s with
  | nil => simp
  | cons x xs ih =>
    have here := one x List.mem_cons_self s held
    rw [List.foldlM_cons,List.forall_mem_cons,← here]
    cases first : step s x with
    | none => simp
    | some s₁ =>
      rw [← ih (fun x' member => one x' (List.mem_cons_of_mem x member)) (keeps s x s₁ held first)]
      simp

end

end SelfPropelled.Library
