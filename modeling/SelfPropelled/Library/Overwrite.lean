import Mathlib

/-! Cells that events only overwrite: what a run leaves in one, and that a run leaves the same
on top of another whose writes it repeats. -/

namespace SelfPropelled.Library

section
variable {ε σ ν : Type*}

/-- What the last of the events that write into the cell puts there. -/
def lastWrite (effect : ε → Option ν) : List ε → Option ν
  | [] => none
  | e :: events => (lastWrite effect events).or (effect e)

theorem lastWrite_isSome {effect : ε → Option ν} {events : List ε} :
    (lastWrite effect events).isSome = true ↔ ∃ e ∈ events, (effect e).isSome = true := by
  induction events with
  | nil => simp [lastWrite]
  | cons e events ih => simp [lastWrite,Option.isSome_or,ih,or_comm]

theorem lastWrite_mem {effect : ε → Option ν} {events : List ε} {v : ν} (last : lastWrite effect events = some v) :
    ∃ e ∈ events, effect e = some v := by
  induction events with
  | nil => cases last
  | cons e events ih =>
    rw [lastWrite,Option.or_eq_some_iff] at last
    rcases last with later | ⟨_,here⟩
    · obtain ⟨e',member,wrote⟩ := ih later
      exact ⟨e',List.mem_cons_of_mem e member,wrote⟩
    · exact ⟨e,List.mem_cons_self,here⟩

/-- A cell of a state, and what each event writes into it whatever the state is. -/
structure Cell (step : σ → ε → σ) (ν : Type*) where
  read : σ → ν
  effect : ε → Option ν
  read_step : ∀ s e, read (step s e) = (effect e).getD (read s)

namespace Cell
variable {step : σ → ε → σ}

theorem read_run (c : Cell step ν) (s : σ) (events : List ε) :
    c.read (events.foldl step s) = (lastWrite c.effect events).getD (c.read s) := by
  induction events generalizing s with
  | nil => rfl
  | cons e events ih =>
    rw [List.foldl_cons,ih,c.read_step,lastWrite]
    cases lastWrite c.effect events <;> rfl

/-- A run that writes wherever an earlier one wrote leaves what it leaves without that one. -/
theorem read_rerun (c : Cell step ν) (s : σ) {first later : List ε}
    (again : ∀ e ∈ first, (c.effect e).isSome = true → ∃ e' ∈ later, (c.effect e').isSome = true) :
    c.read (later.foldl step (first.foldl step s)) = c.read (later.foldl step s) := by
  rw [c.read_run,c.read_run,c.read_run]
  cases last : lastWrite c.effect later with
  | some v => rfl
  | none =>
    have never : lastWrite c.effect first = none := by
      cases before : lastWrite c.effect first with
      | none => rfl
      | some v =>
        obtain ⟨e,member,wrote⟩ := lastWrite_mem before
        have some := lastWrite_isSome.mpr (again e member (by rw [wrote]; rfl))
        simp [last] at some
    rw [never]
    rfl

end Cell

end

end SelfPropelled.Library
