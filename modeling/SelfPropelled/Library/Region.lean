import Mathlib

/-! Address ranges that share no byte, and families of them that are split and
handed on. -/

namespace SelfPropelled.Library

/-- A range of addresses. -/
structure Region where
  lo : Nat
  len : Nat
deriving DecidableEq, Repr

namespace Region

def hi (r : Region) : Nat := r.lo + r.len

def Has (r : Region) (x : Nat) : Prop := r.lo ≤ x ∧ x < r.hi

def Apart (r q : Region) : Prop := ∀ x, r.Has x → ¬q.Has x

def empty : Region := ⟨0,0⟩

def Within (r q : Region) : Prop := q.lo ≤ r.lo ∧ r.hi ≤ q.hi

instance (r q : Region) : Decidable (r.Within q) := inferInstanceAs (Decidable (_ ∧ _))

theorem Apart.symm {r q : Region} (apart : r.Apart q) : q.Apart r :=
  fun x second first => apart x first second

theorem Apart.mono {r r' q q' : Region} (apart : r.Apart q) (left : ∀ x, r'.Has x → r.Has x)
    (right : ∀ x, q'.Has x → q.Has x) : r'.Apart q' :=
  fun x first second => apart x (left x first) (right x second)

theorem Within.has {r q : Region} (inside : r.Within q) {x : Nat} (held : r.Has x) : q.Has x :=
  ⟨Nat.le_trans inside.1 held.1,Nat.lt_of_lt_of_le held.2 inside.2⟩

theorem not_has_empty (x : Nat) : ¬empty.Has x := by
  simp [Has,hi,empty]

theorem apart_iff {r q : Region} :
    r.Apart q ↔ r.len = 0 ∨ q.len = 0 ∨ r.hi ≤ q.lo ∨ q.hi ≤ r.lo := by
  refine ⟨fun apart => ?_,fun order x first second => ?_⟩
  · by_contra overlap
    have left : r.Has (max r.lo q.lo) := by
      simp only [Has,hi] at *
      omega
    have right : q.Has (max r.lo q.lo) := by
      simp only [Has,hi] at *
      omega
    exact apart _ left right
  · simp only [Has,hi] at *
    omega

instance (r q : Region) : Decidable (r.Apart q) := decidable_of_iff _ apart_iff.symm

theorem apart_of_le {r q : Region} (before : r.hi ≤ q.lo) : r.Apart q :=
  fun _ first second => absurd (Nat.lt_of_lt_of_le first.2 before) (Nat.not_lt_of_le second.1)

end Region

/-- Ranges with owners, no address with two of them. -/
def Owned {ι : Type*} (region : ι → Region) : Prop := ∀ i j, i ≠ j → (region i).Apart (region j)

/-- A family stays owned when every new range comes out of an old one, and those
that come out of the same one are apart. -/
theorem Owned.refine {ι κ : Type*} {old : ι → Region} {new : κ → Region} (owned : Owned old)
    (source : κ → ι) (inside : ∀ k x, (new k).Has x → (old (source k)).Has x)
    (apart : ∀ i j, i ≠ j → source i = source j → (new i).Apart (new j)) : Owned new := by
  intro i j differ
  by_cases same : source i = source j
  · exact apart i j differ same
  · exact (owned _ _ same).mono (inside i) (inside j)

end SelfPropelled.Library
