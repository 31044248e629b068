import SelfPropelled.Library.Xml

/-! Where a closing tag can occur in the text that is written of a tree. -/

namespace SelfPropelled.Library.Xml

mutual

/-- The names of the elements of a tree. -/
def Tree.names : Tree → List Text
  | .leaf name _ _ => [name]
  | .branch name _ children => name :: namesAll children

def namesAll : List Tree → List Text
  | [] => []
  | t :: ts => t.names ++ namesAll ts

end

def closing (key : Text) : Text := '<' :: '/' :: key ++ ['>']

section
variable {key name body s : Text} {attrs : List (Text × Text)}

theorem closing_after {p : Text} (plain : '<' ∉ p) (occurs : closing key <:+: p ++ s) : closing key <:+: s := by
  induction p with
  | nil => exact occurs
  | cons c p ih =>
    obtain ⟨head,tail⟩ := not_or.mp (mt List.mem_cons.mpr plain)
    rw [List.cons_append,List.infix_cons_iff] at occurs
    rcases occurs with here | later
    · exact absurd (List.cons_prefix_cons.mp here).1 head
    · exact ih tail later

theorem closing_after_tag {c : Char} (plain : '<' ∉ c :: body) (other : c ≠ '/')
    (occurs : closing key <:+: '<' :: (c :: body) ++ s) : closing key <:+: s := by
  rw [List.cons_append,List.infix_cons_iff] at occurs
  rcases occurs with here | later
  · have second := (List.cons_prefix_cons.mp (List.cons_prefix_cons.mp here).2).1
    exact absurd second.symm other
  · exact closing_after plain later

theorem closing_after_end (named : isName name = true) (other : name ≠ key) (known : isName key = true)
    (occurs : closing key <:+: '<' :: '/' :: name ++ '>' :: s) : closing key <:+: s := by
  have plain : '<' ∉ '/' :: name ++ ['>'] := by simp [not_mem_name named (c := '<') (by decide)]
  have whole : '<' :: '/' :: name ++ '>' :: s = '<' :: (('/' :: name ++ ['>']) ++ s) := by simp
  rw [whole,List.infix_cons_iff] at occurs
  rcases occurs with here | later
  · have names : key ++ ['>'] <+: name ++ '>' :: s := by
      simpa [closing] using here
    have front : ∀ {a b : Text}, '>' ∉ a → (a ++ '>' :: b).takeWhile (· ≠ '>') = a := by
      intro a b absent
      rw [List.takeWhile_append_of_pos fun c member => by
        simpa using fun same : c = '>' => absent (same ▸ member)]
      simp
    obtain ⟨rest,same⟩ := names
    have equal := congrArg (List.takeWhile (· ≠ '>')) same
    rw [List.append_assoc,List.singleton_append,front (not_mem_name known (by decide)),
      front (not_mem_name named (by decide))] at equal
    exact absurd equal.symm other
  · exact closing_after plain later

theorem closing_after_open (valid : validTag name attrs = true) (last : Text) (plain : '<' ∉ last)
    (occurs : closing key <:+: '<' :: (tagText name attrs ++ last) ++ s) : closing key <:+: s := by
  obtain ⟨c,rest,shape,start⟩ := tagText_cons valid
  have low := (not_mem_tagText valid).1
  rw [shape] at low occurs
  have char : isNameChar c = true := by simp [isNameChar,start]
  have other := nameChar_plain (d := '/') char (by decide)
  have inner : '<' ∉ c :: (rest ++ last) := by simpa [plain] using low
  exact closing_after_tag inner other occurs

end

mutual

/-- Only an element closes with its name. -/
theorem Tree.closing_after_write {key : Text} (known : isName key = true) (level : Nat) :
    (t : Tree) → t.valid = true → key ∉ t.names → ∀ s, closing key <:+: t.write level ++ s → closing key <:+: s
  | .leaf name attrs content, valid, other, s, occurs => by
    rw [Tree.valid] at valid
    have named := (validTag_iff.mp valid).1
    have differs : name ≠ key := fun same => other (by simp [Tree.names,same])
    have shape : (Tree.leaf name attrs content).write level ++ s =
        '<' :: (tagText name attrs ++ ['>']) ++ (escape false content ++ ('<' :: '/' :: name ++ '>' :: s)) := by
      simp [Tree.write]
    rw [shape] at occurs
    have inner := closing_after_open valid ['>'] (by decide) occurs
    exact closing_after_end named differs known (closing_after (not_mem_escape false content).1 inner)
  | .branch name attrs children, valid, other, s, occurs => by
    rw [Tree.valid,Bool.and_eq_true] at valid
    have named := (validTag_iff.mp valid.1).1
    rw [Tree.names,List.mem_cons,not_or] at other
    by_cases empty : children.isEmpty = true
    · have shape : (Tree.branch name attrs children).write level ++ s =
          '<' :: (tagText name attrs ++ ['/','>']) ++ s := by
        simp [Tree.write,empty]
      rw [shape] at occurs
      exact closing_after_open valid.1 ['/','>'] (by decide) occurs
    · have shape : (Tree.branch name attrs children).write level ++ s =
          '<' :: (tagText name attrs ++ ['>','\n']) ++ (writeAll (level + 1) children ++
            (indent level ++ ('<' :: '/' :: name ++ '>' :: s))) := by
        simp [Tree.write,empty]
      rw [shape] at occurs
      have inner := closing_after_open valid.1 ['>','\n'] (by decide) occurs
      have after := closing_after_writeAll known (level + 1) children valid.2 other.2 _ inner
      exact closing_after_end named (Ne.symm other.1) known (closing_after (indent_plain level (by decide)) after)

theorem closing_after_writeAll {key : Text} (known : isName key = true) (level : Nat) :
    (ts : List Tree) → allValid ts = true → key ∉ namesAll ts → ∀ s,
      closing key <:+: writeAll level ts ++ s → closing key <:+: s
  | [], _, _, _, occurs => occurs
  | t :: ts, valid, other, s, occurs => by
    rw [allValid,Bool.and_eq_true] at valid
    rw [namesAll,List.mem_append,not_or] at other
    have shape : writeAll level (t :: ts) ++ s =
        indent level ++ (t.write level ++ (['\n'] ++ (writeAll level ts ++ s))) := by
      simp [writeAll]
    rw [shape] at occurs
    have first := Tree.closing_after_write known level t valid.1 other.1 _
      (closing_after (indent_plain level (by decide)) occurs)
    exact closing_after_writeAll known level ts valid.2 other.2 s (closing_after (by decide) first)

end

theorem closing_not_in_document {key : Text} (known : isName key = true) {t : Tree} (valid : t.valid = true)
    (other : key ∉ t.names) : ¬closing key <:+: document t := by
  intro occurs
  have shape : document t = '<' :: (declaration ++ ['>','\n']) ++ (t.write 0 ++ ['\n']) := by
    simp [document]
  rw [shape] at occurs
  have low : '<' ∉ '?' :: (declaration.tail ++ ['>','\n']) := by decide
  have inner := closing_after_tag low (by decide) occurs
  have after := Tree.closing_after_write known 0 t valid other _ inner
  have nothing : ¬closing key <:+: ['\n'] := fun this => by
    have long := this.length_le
    simp [closing] at long
  exact nothing after

end SelfPropelled.Library.Xml
