import SelfPropelled.Library.Xml

/-! XML documents that are written on one line, with their texts as they stand. -/

namespace SelfPropelled.Library.Xml

mutual

def Tree.flat : Tree → Text
  | .leaf name attrs content => '<' :: tagText name attrs ++ ['>'] ++ content ++ '<' :: '/' :: name ++ ['>']
  | .branch name attrs children =>
    '<' :: tagText name attrs ++ ['>'] ++ flatAll children ++ '<' :: '/' :: name ++ ['>']

def flatAll : List Tree → Text
  | [] => []
  | t :: ts => t.flat ++ flatAll ts

end

mutual

/-- The node of a tree that is written so. -/
def Tree.node : Tree → Node
  | .leaf name attrs content => .element name attrs (if content = [] then [] else [.text content])
  | .branch name attrs children => .element name attrs (nodes children)

def nodes : List Tree → List Node
  | [] => []
  | t :: ts => t.node :: nodes ts

end

/-- A byte that a document may hold: of the control characters only two. -/
def xmlChar (c : Char) : Prop := 32 ≤ c.toNat ∨ c = '\t' ∨ c = '\n'

/-- A text that can stand in a document as it is. What the parser here asks for is that there
is no markup in it. -/
structure Plain (s : Text) : Prop where
  markup : '<' ∉ s ∧ '&' ∉ s
  chars : ∀ c ∈ s, xmlChar c
  section_end : ¬"]]>".toList <:+: s

/-- Characters that need no second look. -/
def easyChar (c : Char) : Bool := c ≠ '<' && c ≠ '&' && c ≠ ']' && decide (32 ≤ c.toNat)

theorem plain_of_easy {s : Text} (easy : s.all easyChar = true) : Plain s := by
  have each : ∀ c ∈ s, c ≠ '<' ∧ c ≠ '&' ∧ c ≠ ']' ∧ 32 ≤ c.toNat := fun c member => by
    simpa [easyChar,and_assoc] using List.all_eq_true.mp easy c member
  refine ⟨⟨fun low => (each _ low).1 rfl,fun amp => (each _ amp).2.1 rfl⟩,fun c member => .inl (each c member).2.2.2,?_⟩
  intro occurs
  exact (each ']' (occurs.subset List.mem_cons_self)).2.2.1 rfl

mutual

/-- Names are names, and no text needs to be escaped. -/
def Tree.Clean : Tree → Prop
  | .leaf name attrs content => validTag name attrs = true ∧ Plain content
  | .branch name attrs children => validTag name attrs = true ∧ AllClean children

def AllClean : List Tree → Prop
  | [] => True
  | t :: ts => t.Clean ∧ AllClean ts

end

theorem allClean_iff {ts : List Tree} : AllClean ts ↔ ∀ t ∈ ts, t.Clean := by
  induction ts with
  | nil => simp [AllClean]
  | cons t ts ih => simp [AllClean,ih]

theorem flatAll_append (ts us : List Tree) : flatAll (ts ++ us) = flatAll ts ++ flatAll us := by
  induction ts with
  | nil => rfl
  | cons t ts ih => rw [List.cons_append,flatAll,flatAll,ih,List.append_assoc]

/-- A text that adds nodes to the innermost open element. -/
def Reads (s : Text) (added : List Node) : Prop := ∀ f fs,
  run ⟨f :: fs,.content []⟩ s = some ⟨{f with children := f.children ++ added} :: fs,.content []⟩

theorem reads_nil : Reads [] [] := fun f fs => by
  rw [List.append_nil]
  rfl

theorem Reads.append {s t : Text} {a b : List Node} (first : Reads s a) (second : Reads t b) : Reads (s ++ t) (a ++ b) := by
  intro f fs
  rw [run_append,first f fs,Option.bind_some,second _ fs,List.append_assoc]

section
variable {name : Text} {attrs : List (Text × Text)}

theorem reads_leaf (valid : validTag name attrs = true) {content : Text} (plain : Plain content) :
    Reads (Tree.leaf name attrs content).flat [(Tree.leaf name attrs content).node] := by
  intro f fs
  have named := (validTag_iff.mp valid).1
  have shape : (Tree.leaf name attrs content).flat =
      '<' :: tagText name attrs ++ ['>'] ++ content ++ ('<' :: '/' :: name ++ ['>']) := by
    rw [Tree.flat,List.append_assoc]
  rw [shape,run_append,run_append,run_open valid flush_nil,Option.bind_some,run_plain _ plain.markup.1,Option.bind_some,
    List.nil_append]
  cases content with
  | nil => exact run_close named rfl flush_nil
  | cons c content => exact run_close named rfl (flush_plain _ plain.markup.2)

theorem reads_branch (valid : validTag name attrs = true) {children : List Tree}
    (inside : Reads (flatAll children) (nodes children)) :
    Reads (Tree.branch name attrs children).flat [(Tree.branch name attrs children).node] := by
  intro f fs
  have named := (validTag_iff.mp valid).1
  have shape : (Tree.branch name attrs children).flat =
      '<' :: tagText name attrs ++ ['>'] ++ flatAll children ++ ('<' :: '/' :: name ++ ['>']) := by
    rw [Tree.flat,List.append_assoc]
  rw [shape,run_append,run_append,run_open valid flush_nil,Option.bind_some,inside,Option.bind_some,
    run_close named rfl flush_nil]
  rfl

end

mutual

theorem Tree.reads_flat : (t : Tree) → t.Clean → Reads t.flat [t.node]
  | .leaf _ _ _, clean => by
    rw [Tree.Clean] at clean
    exact reads_leaf clean.1 clean.2
  | .branch _ _ children, clean => by
    rw [Tree.Clean] at clean
    exact reads_branch clean.1 (reads_flatAll children clean.2)

theorem reads_flatAll : (ts : List Tree) → AllClean ts → Reads (flatAll ts) (nodes ts)
  | [], _ => reads_nil
  | t :: ts, clean => by
    rw [AllClean] at clean
    exact (t.reads_flat clean.1).append (reads_flatAll ts clean.2)

end

/-- A document with a processing instruction in front is read back. -/
theorem parse_flat {t : Tree} (clean : t.Clean) {body : Text} (low : '<' ∉ body) (high : '>' ∉ body)
    (skipped : ∀ fs, endTag body fs = some fs) : parse ('<' :: body ++ ['>'] ++ t.flat) = some t.node := by
  have whole : run ⟨[⟨[],[],[]⟩],.content []⟩ ('<' :: body ++ ['>'] ++ t.flat) =
      some ⟨[⟨[],[],[t.node]⟩],.content []⟩ := by
    rw [run_append,run_tag low high flush_nil,skipped,Option.map_some,Option.bind_some,t.reads_flat clean]
    rfl
  rw [parse,whole]
  cases t <;> rfl

end SelfPropelled.Library.Xml
