import SelfPropelled.Library.Run

/-! Steps that an abstraction does not see, and what a falling measure leads to. -/

namespace SelfPropelled.Library

section
variable {σ κ α : Type*} {step : σ → α → σ} {fine : κ → α → κ}

/-- A finer system, each of whose steps is a step of the coarse one or none, runs as the
coarse one does on some of the inputs. -/
theorem run_refines (abs : κ → σ) (sim : ∀ k a, abs (fine k a) = abs k ∨ abs (fine k a) = step (abs k) a) (k : κ) (inputs : List α) :
    ∃ seen, seen.Sublist inputs ∧ abs (run fine k inputs) = run step (abs k) seen := by
  induction inputs generalizing k with
  | nil => exact ⟨[],.slnil,rfl⟩
  | cons a rest ih =>
    obtain ⟨seen,sub,same⟩ := ih (fine k a)
    rcases sim k a with unseen | taken
    · exact ⟨seen,sub.cons a,by rw [run_cons,same,unseen]⟩
    · exact ⟨a :: seen,sub.cons_cons a,by rw [run_cons,same,taken,run_cons]⟩

/-- What a process does in a bounded number of its own steps it does in every run under the
condition in which it is scheduled that often. -/
theorem reaches (ok : σ → α → Prop) (Inv Done : σ → Prop) {own : α → Bool} (m : σ → Nat) (zero : ∀ s, Inv s → m s = 0 → Done s)
    (falls : ∀ s a, Inv s → ok s a → ¬Done s → own a = true → Done (step s a) ∨ Inv (step s a) ∧ m (step s a) < m s)
    (keeps : ∀ s a, Inv s → ok s a → ¬Done s → own a = false → Done (step s a) ∨ Inv (step s a) ∧ m (step s a) ≤ m s)
    {s : σ} {inputs : List α} (inv : Inv s) (met : Meets step ok s inputs) (enough : m s ≤ inputs.countP own) :
    ∃ first rest, inputs = first ++ rest ∧ Done (run step s first) := by
  induction inputs generalizing s with
  | nil => exact ⟨[],[],rfl,zero s inv (Nat.le_zero.mp enough)⟩
  | cons a rest ih =>
    by_cases done : Done s
    · exact ⟨[],a :: rest,rfl,done⟩
    have next : Done (step s a) ∨ Inv (step s a) ∧ m (step s a) ≤ rest.countP own := by
      cases mine : own a with
      | true =>
        rw [List.countP_cons_of_pos mine] at enough
        exact (falls s a inv met.1 done mine).imp_right fun ⟨inv',less⟩ => ⟨inv',by omega⟩
      | false =>
        rw [List.countP_cons_of_neg (by simp [mine])] at enough
        exact (keeps s a inv met.1 done mine).imp_right fun ⟨inv',less⟩ => ⟨inv',by omega⟩
    rcases next with now | ⟨inv',enough'⟩
    · exact ⟨[a],rest,rfl,now⟩
    · obtain ⟨first,after,split,done'⟩ := ih inv' met.2 enough'
      exact ⟨a :: first,after,by rw [split]; rfl,done'⟩

end

end SelfPropelled.Library
