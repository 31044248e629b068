import Mathlib

/-! Dictionaries that keep the order in which their keys were first set. -/

namespace SelfPropelled.Library

abbrev Dict (κ ν : Type*) := List (κ × ν)

namespace Dict

section
variable {κ ν : Type*}

/-- No key twice, as in every dictionary that is built by setting keys. -/
def Plain (d : Dict κ ν) : Prop := (d.map Prod.fst).Nodup

theorem plain_nil : Plain ([] : Dict κ ν) := List.nodup_nil

variable [DecidableEq κ]

def get : Dict κ ν → κ → Option ν
  | [], _ => none
  | (k',v) :: d, k => if k' = k then some v else get d k

/-- A key that is there keeps its place. -/
def set : Dict κ ν → κ → ν → Dict κ ν
  | [], k, v => [(k,v)]
  | (k',v') :: d, k, v => if k' = k then (k',v) :: d else (k',v') :: set d k v

@[simp] theorem get_nil (k : κ) : get ([] : Dict κ ν) k = none := rfl

theorem get_set (d : Dict κ ν) (k k' : κ) (v : ν) :
    get (set d k v) k' = if k = k' then some v else get d k' := by
  induction d with
  | nil => simp [set,get]
  | cons entry d ih =>
    obtain ⟨k₀,v₀⟩ := entry
    by_cases here : k₀ = k
    · subst here
      by_cases same : k₀ = k' <;> simp [set,get,same]
    · by_cases same : k₀ = k'
      · subst same
        simp [set,get,here,Ne.symm here]
      · simp [set,get,here,same,ih]

theorem get_mem {d : Dict κ ν} {k : κ} {v : ν} (found : get d k = some v) : (k,v) ∈ d := by
  induction d with
  | nil => cases found
  | cons entry d ih =>
    obtain ⟨k₀,v₀⟩ := entry
    rw [get] at found
    split_ifs at found with here
    · cases found
      rw [here]
      exact List.mem_cons_self
    · exact List.mem_cons_of_mem _ (ih found)

theorem get_isSome {d : Dict κ ν} {k : κ} : (get d k).isSome ↔ k ∈ d.map Prod.fst := by
  induction d with
  | nil => simp
  | cons entry d ih =>
    obtain ⟨k₀,v₀⟩ := entry
    by_cases here : k₀ = k
    · simp [get,here]
    · simp [get,here,ih,Ne.symm here]

def remove (d : Dict κ ν) (k : κ) : Dict κ ν := d.filter fun entry => entry.1 ≠ k

theorem get_remove (d : Dict κ ν) (k k' : κ) : get (remove d k) k' = if k' = k then none else get d k' := by
  induction d with
  | nil => simp [remove,get]
  | cons entry d ih =>
    obtain ⟨k₀,v₀⟩ := entry
    by_cases here : k₀ = k
    · have gone : remove ((k₀,v₀) :: d) k = remove d k := by simp [remove,here]
      rw [gone,ih]
      by_cases same : k' = k
      · rw [if_pos same,if_pos same]
      · rw [if_neg same,if_neg same,get,if_neg fun both => same (both.symm.trans here)]
    · have stays : remove ((k₀,v₀) :: d) k = (k₀,v₀) :: remove d k := by simp [remove,here]
      rw [stays,get,get,ih]
      by_cases same : k₀ = k'
      · subst same
        simp [here]
      · simp [same]

theorem mem_set {d : Dict κ ν} {k : κ} {v : ν} {entry : κ × ν} (member : entry ∈ set d k v) :
    entry = (k,v) ∨ entry ∈ d := by
  induction d with
  | nil => exact .inl (List.mem_singleton.mp member)
  | cons first d ih =>
    obtain ⟨k₀,v₀⟩ := first
    rw [set] at member
    split_ifs at member with here
    · rcases List.mem_cons.mp member with rfl | later
      · exact .inl (by rw [here])
      · exact .inr (List.mem_cons_of_mem _ later)
    · rcases List.mem_cons.mp member with rfl | later
      · exact .inr List.mem_cons_self
      · exact (ih later).imp_right (List.mem_cons_of_mem _)

theorem keys_set (d : Dict κ ν) (k : κ) (v : ν) :
    (set d k v).map Prod.fst = if k ∈ d.map Prod.fst then d.map Prod.fst else d.map Prod.fst ++ [k] := by
  induction d with
  | nil => rfl
  | cons entry d ih =>
    obtain ⟨k₀,v₀⟩ := entry
    by_cases here : k₀ = k
    · simp [set,here]
    · rw [set,if_neg here,List.map_cons,ih]
      by_cases there : k ∈ d.map Prod.fst
      · simp [there]
      · rw [if_neg there,if_neg (by simpa [Ne.symm here] using there)]
        rfl

/-- Whatever the first has at a key, the second has. -/
def Extends (d d' : Dict κ ν) : Prop := ∀ k v, get d k = some v → get d' k = some v

theorem Extends.refl (d : Dict κ ν) : Extends d d := fun _ _ found => found

theorem Extends.trans {d d' d'' : Dict κ ν} (first : Extends d d') (second : Extends d' d'') : Extends d d'' :=
  fun k v found => second k v (first k v found)

theorem extends_set {d : Dict κ ν} {k : κ} (fresh : get d k = none) (v : ν) : Extends d (set d k v) := by
  intro k' v' found
  have other : k ≠ k' := by
    rintro rfl
    rw [fresh] at found
    cases found
  rw [get_set,if_neg other,found]

theorem set_fresh {d : Dict κ ν} {k : κ} (fresh : get d k = none) (v : ν) : set d k v = d ++ [(k,v)] := by
  induction d with
  | nil => rfl
  | cons entry d ih =>
    obtain ⟨k₀,v₀⟩ := entry
    rw [get] at fresh
    split_ifs at fresh with here
    rw [set,if_neg here,ih fresh,List.cons_append]

theorem get_map_snd {ν' : Type*} (f : ν → ν') (d : Dict κ ν) (k : κ) :
    get (d.map fun entry => (entry.1,f entry.2)) k = (get d k).map f := by
  induction d with
  | nil => rfl
  | cons entry d ih =>
    obtain ⟨k₀,v₀⟩ := entry
    by_cases here : k₀ = k <;> simp [get,here,ih]

theorem Plain.set {d : Dict κ ν} (plain : Plain d) (k : κ) (v : ν) : Plain (set d k v) := by
  rw [Plain,keys_set]
  split_ifs with there
  · exact plain
  · exact List.nodup_append.mpr ⟨plain,List.nodup_singleton k,fun a member b last => by
      rw [List.mem_singleton.mp last]
      exact fun equal => there (equal ▸ member)⟩

theorem Plain.get_of_mem {d : Dict κ ν} (plain : Plain d) {k : κ} {v : ν} (member : (k,v) ∈ d) :
    get d k = some v := by
  induction d with
  | nil => cases member
  | cons entry d ih =>
    obtain ⟨k₀,v₀⟩ := entry
    obtain ⟨fresh,plain⟩ := List.nodup_cons.mp plain
    rcases List.mem_cons.mp member with here | later
    · cases here
      rw [get,if_pos rfl]
    · have other : k₀ ≠ k := fun equal => fresh (by
        rw [equal]
        exact List.mem_map.mpr ⟨(k,v),later,rfl⟩)
      rw [get,if_neg other]
      exact ih plain later

end

section
variable {κ κ' ν : Type*} [DecidableEq κ] [DecidableEq κ']

def get2 (d : Dict κ (Dict κ' ν)) (k : κ) (k' : κ') : Option ν := (get d k).bind fun row => get row k'

def set2 (d : Dict κ (Dict κ' ν)) (k : κ) (k' : κ') (v : ν) : Dict κ (Dict κ' ν) :=
  set d k (set ((get d k).getD []) k' v)

theorem get2_set2 (d : Dict κ (Dict κ' ν)) (k l : κ) (k' l' : κ') (v : ν) :
    get2 (set2 d k k' v) l l' = if k = l ∧ k' = l' then some v else get2 d l l' := by
  unfold get2 set2
  rw [get_set]
  by_cases same : k = l
  · subst same
    rw [if_pos rfl,Option.bind_some,get_set]
    by_cases inner : k' = l'
    · simp [inner]
    · cases row : get d k <;> simp [inner]
  · simp [same]

theorem get2_set2_isSome (d : Dict κ (Dict κ' ν)) (k : κ) (k' : κ') (v : ν) (q : κ × κ') :
    (get2 (set2 d k k' v) q.1 q.2).isSome = true ↔ (get2 d q.1 q.2).isSome = true ∨ q = (k,k') := by
  rw [get2_set2,Prod.ext_iff]
  by_cases same : k = q.1 ∧ k' = q.2
  · simp [same]
  · have other : ¬(q.1 = k ∧ q.2 = k') := fun equal => same ⟨equal.1.symm,equal.2.symm⟩
    rw [if_neg same]
    simp only [other,or_false]

end

end Dict

end SelfPropelled.Library
