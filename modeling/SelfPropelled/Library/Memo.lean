import Mathlib

/-! Caches in front of a function, and what keeps them faithful to it. -/

namespace SelfPropelled.Library
variable {κ ν α : Type*} {known : κ → Option ν} {f g : κ → ν}

/-- What a cache knows is what the function gives. -/
def Faithful (known : κ → Option ν) (f : κ → ν) : Prop := ∀ k v, known k = some v → f k = v

theorem Faithful.answer (faithful : Faithful known f) (k : κ) : (known k).getD (f k) = f k := by
  cases hit : known k with
  | none => rfl
  | some v => exact (faithful k v hit).symm

/-- The function changes where nothing is cached. -/
theorem Faithful.change (faithful : Faithful known f) (same : ∀ k, known k ≠ none → g k = f k) :
    Faithful known g := by
  intro k v hit
  rw [same k (by simp [hit])]
  exact faithful k v hit

section
variable [BEq κ]

/-- A cache of two parts: answers, and keys that are known to have none. -/
def consult (map : List (κ × α)) (missing : List κ) (hit : α → ν) (no : ν) (k : κ) : Option ν :=
  match map.lookup k with
  | some a => some (hit a)
  | none => if missing.contains k then some no else none

variable {map : List (κ × α)} {missing : List κ} {hit : α → ν} {no : ν}

theorem consult_hit {k : κ} {a : α} (there : map.lookup k = some a) :
    consult map missing hit no k = some (hit a) := by
  simp only [consult,there]

variable [LawfulBEq κ]

theorem consult_missing {k : κ} (absent : map.lookup k = none) (miss : k ∈ missing) :
    consult map missing hit no k = some no := by
  simp only [consult,absent,if_pos (List.contains_iff_mem.mpr miss)]

theorem consult_none {k : κ} (absent : map.lookup k = none) (unknown : k ∉ missing) :
    consult map missing hit no k = none := by
  simp only [consult,absent,if_neg (mt List.contains_iff_mem.mp unknown)]

theorem Faithful.found (faithful : Faithful (consult map missing hit no) f) {k : κ} {a : α}
    (answer : f k = hit a) : Faithful (consult ((k,a) :: map) missing hit no) f := by
  intro j v known
  by_cases same : j = k
  · subst j
    rw [consult_hit List.lookup_cons_self] at known
    exact answer.trans (Option.some.inj known)
  · refine faithful j v ?_
    simpa only [consult,List.lookup_cons,beq_eq_false_iff_ne.mpr same] using known

theorem Faithful.missed (faithful : Faithful (consult map missing hit no) f) {k : κ}
    (answer : f k = no) : Faithful (consult map (k :: missing) hit no) f := by
  intro j v known
  by_cases same : j = k
  · subst j
    cases there : map.lookup k with
    | some a =>
      rw [consult_hit there] at known
      exact faithful k v ((consult_hit there).trans known)
    | none =>
      rw [consult_missing there List.mem_cons_self] at known
      exact answer.trans (Option.some.inj known)
  · refine faithful j v ?_
    simpa only [consult,List.contains_cons,beq_eq_false_iff_ne.mpr same,Bool.false_or] using known

theorem mem_of_consult {k : κ} (known : consult map missing hit no k ≠ none) :
    k ∈ map.map Prod.fst ++ missing := by
  cases there : map.lookup k with
  | some a =>
    obtain ⟨front,back,split,_⟩ := List.lookup_eq_some_iff.mp there
    simp [split]
  | none =>
    by_cases miss : k ∈ missing
    · exact List.mem_append_right _ miss
    · exact absurd (consult_none there miss) known

end

end SelfPropelled.Library
