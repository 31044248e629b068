import Mathlib

/-! Process environments: lists of `name=value` strings in which the first
definition of a name counts, and values that are lists with separators. -/

namespace SelfPropelled.Environment

/-- A string without its terminator. A `Char` stands for one character of the
program's own strings, a byte where these are of C. -/
abbrev Str := List Char

def key (name : String) : Str := name.toList ++ ['=']

def Defines (name : String) (entry : Str) : Prop := key name <+: entry

instance (name : String) (entry : Str) : Decidable (Defines name entry) :=
  inferInstanceAs (Decidable (_ <+: _))

def getenv (env : List Str) (name : String) : Option Str := env.findSome? ((key name).isPrefixOf? ·)

def setenv (name : String) (value : Str) : List Str → List Str
  | [] => [key name ++ value]
  | e :: env => if Defines name e then (key name ++ value) :: env else e :: setenv name value env

def unsetenv (name : String) (env : List Str) : List Str := env.filter fun e => !decide (Defines name e)

def entries (sep : Char → Bool) (value : Str) : List Str := value.splitOnP sep

theorem isPrefixOf?_key (name : String) (v : Str) : (key name).isPrefixOf? (key name ++ v) = some v :=
  List.isPrefixOf?_eq_some_iff_append_eq.mpr rfl

theorem isPrefixOf?_none {name : String} {e : Str} (other : ¬Defines name e) :
    (key name).isPrefixOf? e = none := by
  cases found : (key name).isPrefixOf? e with
  | none => rfl
  | some v => exact absurd ⟨v,List.isPrefixOf?_eq_some_iff_append_eq.mp found⟩ other

theorem getenv_cons_defines (name : String) (v : Str) (env : List Str) :
    getenv ((key name ++ v) :: env) name = some v := by
  rw [getenv,List.findSome?_cons,isPrefixOf?_key]

theorem getenv_cons_other {name : String} {e : Str} (other : ¬Defines name e) (env : List Str) :
    getenv (e :: env) name = getenv env name := by
  rw [getenv,List.findSome?_cons,isPrefixOf?_none other]
  rfl

theorem getenv_append (front back : List Str) (name : String) :
    getenv (front ++ back) name = (getenv front name).or (getenv back name) := List.findSome?_append

/-- A variable is missing exactly where no entry defines it. -/
theorem getenv_eq_none {env : List Str} {name : String} :
    getenv env name = none ↔ ∀ e ∈ env, ¬Defines name e := by
  rw [getenv,List.findSome?_eq_none_iff]
  refine forall_congr' fun e => imp_congr_right fun _ => ⟨fun missing ⟨v,defined⟩ => ?_,isPrefixOf?_none⟩
  rw [← defined,isPrefixOf?_key] at missing
  cases missing

/-- Rewriting entries that keep their names rewrites the value. -/
theorem getenv_map {env : List Str} {name : String} {f g : Str → Str}
    (defined : ∀ v, key name ++ v ∈ env → f (key name ++ v) = key name ++ g v)
    (other : ∀ e ∈ env, ¬Defines name e → ¬Defines name (f e)) :
    getenv (env.map f) name = (getenv env name).map g := by
  induction env with
  | nil => rfl
  | cons e env ih =>
    have rest := ih (fun v member => defined v (by simp [member])) fun x member => other x (by simp [member])
    by_cases here : Defines name e
    · obtain ⟨v,rfl⟩ := here
      rw [List.map_cons,defined v (by simp),getenv_cons_defines,getenv_cons_defines,Option.map_some]
    · rw [List.map_cons,getenv_cons_other (other e (by simp) here),getenv_cons_other here,rest]

theorem getenv_setenv (name : String) (v : Str) (env : List Str) :
    getenv (setenv name v env) name = some v := by
  induction env with
  | nil => exact getenv_cons_defines name v []
  | cons e env ih =>
    unfold setenv
    split
    next => exact getenv_cons_defines name v env
    next other => rw [getenv_cons_other other,ih]

theorem getenv_setenv_other {name other : String} (unlike : ∀ v, ¬Defines other (key name ++ v))
    (v : Str) (env : List Str) : getenv (setenv name v env) other = getenv env other := by
  induction env with
  | nil => exact getenv_cons_other (unlike v) []
  | cons e env ih =>
    unfold setenv
    split
    next here =>
      obtain ⟨w,rfl⟩ := here
      rw [getenv_cons_other (unlike v),getenv_cons_other (unlike w)]
    next =>
      by_cases same : Defines other e
      · obtain ⟨w,rfl⟩ := same
        rw [getenv_cons_defines,getenv_cons_defines]
      · rw [getenv_cons_other same,getenv_cons_other same,ih]

theorem getenv_unsetenv (name : String) (env : List Str) : getenv (unsetenv name env) name = none := by
  refine getenv_eq_none.mpr fun e listed => ?_
  simpa using (List.mem_filter.mp listed).2

theorem getenv_unsetenv_other {name other : String} (unlike : ∀ v, ¬Defines other (key name ++ v))
    (env : List Str) : getenv (unsetenv name env) other = getenv env other := by
  induction env with
  | nil => rfl
  | cons e env ih =>
    rw [unsetenv] at ih ⊢
    by_cases here : Defines name e
    · obtain ⟨v,rfl⟩ := here
      rw [List.filter_cons_of_neg (by simp [Defines]),ih,getenv_cons_other (unlike v)]
    · rw [List.filter_cons_of_pos (by simpa using here),getenv,getenv,List.findSome?_cons,List.findSome?_cons]
      rw [← getenv,← getenv,ih]

theorem unlike_of_plain {name other : String} (plain : '=' ∉ name.toList) (plain' : '=' ∉ other.toList)
    (different : name ≠ other) (v : Str) : ¬Defines other (key name ++ v) := by
  rintro ⟨w,same⟩
  simp only [key,List.append_assoc,List.singleton_append] at same
  have cut {a b x y : Str} (free : '=' ∉ a) (free' : '=' ∉ b) (equal : a ++ '=' :: x = b ++ '=' :: y) :
      a = b := by
    have front {a x : Str} (free : '=' ∉ a) : (a ++ '=' :: x).takeWhile (· ≠ '=') = a := by
      have before : ∀ c ∈ a, decide (c ≠ '=') = true := by
        intro c inside
        exact decide_eq_true fun same => free (same ▸ inside)
      rw [List.takeWhile_append_of_pos before]
      simp
    rw [← front (x := x) free,equal,front free']
  exact different (String.ext (cut plain plain' same.symm))

theorem entries_append {sep : Char → Bool} {c : Char} (separates : sep c = true) (v w : Str) :
    entries sep (v ++ c :: w) = entries sep v ++ entries sep w := List.splitOnP_append_cons v w separates

theorem entries_single {sep : Char → Bool} {v : Str} (plain : ∀ c ∈ v, sep c = false) :
    entries sep v = [v] := List.splitOnP_eq_singleton plain

theorem plain_of_mem_entries {sep : Char → Bool} {v x : Str} (member : x ∈ entries sep v) :
    ∀ c ∈ x, sep c = false := by
  induction v generalizing x with
  | nil =>
    obtain rfl : x = [] := by simpa [entries] using member
    simp
  | cons d v ih =>
    rw [entries,List.splitOnP_cons_eq_if_modifyHead] at member
    split at member
    next =>
      rcases List.mem_cons.mp member with rfl | rest
      · simp
      · exact ih rest
    next notSep =>
      cases split : v.splitOnP sep with
      | nil => exact absurd split (List.splitOnP_ne_nil sep v)
      | cons y ys =>
        rw [split,List.modifyHead_cons] at member
        rcases List.mem_cons.mp member with rfl | rest
        · intro c inside
          rcases List.mem_cons.mp inside with rfl | inside
          · exact Bool.eq_false_iff.mpr notSep
          · exact ih (x := y) (by rw [entries,split]; simp) c inside
        · exact ih (x := x) (by rw [entries,split]; simp [rest])

theorem infix_of_mem_entries {sep : Char → Bool} {v x : Str} (member : x ∈ entries sep v) : x <:+: v := by
  have piece : ∀ v : Str, ∀ first rest, entries sep v = first :: rest →
      first <+: v ∧ ∀ x ∈ rest, x <:+: v := by
    intro v
    induction v with
    | nil =>
      intro first rest split
      obtain ⟨rfl,rfl⟩ : [] = first ∧ [] = rest := by simpa [entries] using split
      exact ⟨List.prefix_refl _,by simp⟩
    | cons d v ih =>
      intro first rest split
      rw [entries,List.splitOnP_cons_eq_if_modifyHead] at split
      cases more : v.splitOnP sep with
      | nil => exact absurd more (List.splitOnP_ne_nil sep v)
      | cons y ys =>
        obtain ⟨front,back⟩ := ih y ys more
        split at split
        · rw [more] at split
          obtain ⟨rfl,rfl⟩ : [] = first ∧ y :: ys = rest := by simpa using split
          refine ⟨List.nil_prefix,fun x member => ?_⟩
          rcases List.mem_cons.mp member with rfl | later
          · exact List.infix_cons front.isInfix
          · exact List.infix_cons (back x later)
        · rw [more,List.modifyHead_cons] at split
          obtain ⟨rfl,rfl⟩ : d :: y = first ∧ ys = rest := by simpa using split
          exact ⟨List.prefix_cons_inj d |>.mpr front,fun x later => List.infix_cons (back x later)⟩
  cases split : entries sep v with
  | nil => exact absurd split (List.splitOnP_ne_nil sep v)
  | cons first rest =>
    obtain ⟨front,back⟩ := piece v first rest split
    rw [split] at member
    rcases List.mem_cons.mp member with rfl | later
    · exact front.isInfix
    · exact back x later

end SelfPropelled.Environment
