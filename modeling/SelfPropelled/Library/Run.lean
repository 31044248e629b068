import Mathlib

/-! Runs of a system that moves on inputs, and invariants along them. -/

namespace SelfPropelled.Library

section
variable {σ α : Type*} (step : σ → α → σ) (ok : σ → α → Prop)

def run (s : σ) (inputs : List α) : σ := inputs.foldl step s

/-- Every input meets the condition in the state it finds. -/
def Meets : σ → List α → Prop
  | _, [] => True
  | s, a :: rest => ok s a ∧ Meets (step s a) rest

instance instDecidableMeets [each : ∀ s a, Decidable (ok s a)] : (s : σ) → (inputs : List α) →
    Decidable (Meets step ok s inputs)
  | _, [] => .isTrue trivial
  | s, a :: rest =>
    have : Decidable (Meets step ok (step s a) rest) := instDecidableMeets (step s a) rest
    inferInstanceAs (Decidable (_ ∧ _))

@[simp] theorem run_nil (s : σ) : run step s [] = s := rfl

@[simp] theorem run_cons (s : σ) (a : α) (rest : List α) :
    run step s (a :: rest) = run step (step s a) rest := rfl

theorem run_append (s : σ) (first second : List α) :
    run step s (first ++ second) = run step (run step s first) second :=
  List.foldl_append

theorem meets_append {s : σ} {first second : List α} : Meets step ok s (first ++ second) ↔
    Meets step ok s first ∧ Meets step ok (run step s first) second := by
  induction first generalizing s with
  | nil => simp [Meets]
  | cons a rest ih => simp [Meets,ih,and_assoc]

theorem meets_iff_split {s : σ} {inputs : List α} : Meets step ok s inputs ↔
    ∀ first a rest, inputs = first ++ a :: rest → ok (run step s first) a := by
  induction inputs generalizing s with
  | nil => simp [Meets]
  | cons b inputs ih =>
    constructor
    · intro met first a rest split
      cases first with
      | nil =>
        obtain ⟨rfl,rfl⟩ := List.cons.inj split
        exact met.1
      | cons c first =>
        obtain ⟨rfl,later⟩ := List.cons.inj split
        exact ih.mp met.2 first a rest later
    · intro each
      refine ⟨each [] b inputs rfl,ih.mpr fun first a rest split => ?_⟩
      exact each (b :: first) a rest (by rw [split,List.cons_append])

theorem Meets.mono {ok' : σ → α → Prop} {s : σ} {inputs : List α} (met : Meets step ok s inputs)
    (weaker : ∀ s a, ok s a → ok' s a) : Meets step ok' s inputs := by
  induction inputs generalizing s with
  | nil => trivial
  | cons a rest ih => exact ⟨weaker s a met.1,ih met.2⟩

theorem Meets.and {ok' : σ → α → Prop} {s : σ} {inputs : List α} (met : Meets step ok s inputs)
    (other : Meets step ok' s inputs) : Meets step (fun s a => ok s a ∧ ok' s a) s inputs := by
  induction inputs generalizing s with
  | nil => trivial
  | cons a rest ih => exact ⟨⟨met.1,other.1⟩,ih met.2 other.2⟩

theorem meets_of_forall {good : α → Prop} {s : σ} {inputs : List α} (all : ∀ a ∈ inputs, good a) :
    Meets step (fun _ a => good a) s inputs := by
  induction inputs generalizing s with
  | nil => trivial
  | cons a rest ih => exact ⟨all a List.mem_cons_self,ih fun b listed => all b (List.mem_cons_of_mem a listed)⟩

/-- What every step under the condition keeps holds after every run under it. -/
theorem invariant_run {Inv : σ → Prop} (keeps : ∀ s a, Inv s → ok s a → Inv (step s a))
    {s : σ} {inputs : List α} (start : Inv s) (met : Meets step ok s inputs) :
    Inv (run step s inputs) := by
  induction inputs generalizing s with
  | nil => exact start
  | cons a rest ih => exact ih (keeps s a start met.1) met.2

theorem invariant_always {Inv : σ → Prop} (keeps : ∀ s a, Inv s → Inv (step s a)) {s : σ}
    {inputs : List α} (start : Inv s) : Inv (run step s inputs) := by
  induction inputs generalizing s with
  | nil => exact start
  | cons a rest ih => exact ih (keeps s a start)

end

end SelfPropelled.Library
