import SelfPropelled.Library.Overwrite
import SelfPropelled.SecStar.GraphArtist

/-! What is in view after some events, whatever was drawn before: the attributes of the
processes, the nodes and edges shown, and which of them are highlighted. -/

namespace SelfPropelled.SecStar
open Library

inductive Mark
  | process (lit : Bool)
  | file (name : Option Str) (lit : Bool)
deriving DecidableEq

@[ext] structure Scene where
  attrs : Str × Str → Attrs
  nodes : Str → Option Mark
  edges : Arc → Option Bool

/-- Of the edges between the same ends, the one that is drawn first. -/
def leads (arcs : List Arc) (arc : Arc) : Bool := decide (arcs.find? arc.equal = some arc)

def everyEdge (_ : Arc) : Bool := true

namespace Scene

/-- The edge of a chown event is not shown. An exit takes away those edges of a process that
`lead` tells of. -/
def act (lead : Arc → Bool) (s : Scene) (x : Bool × Action) : Scene :=
  match x.2 with
  | .node key c => {s with
      attrs := Function.update s.attrs (partitionAt key) (c.on (s.attrs (partitionAt key))),
      nodes := Function.update s.nodes key (some (.process x.1))}
  | .fileNode key name => {s with nodes := Function.update s.nodes key (some (.file name x.1))}
  | .edge arc => if arc.link = .chown then s else {s with edges := Function.update s.edges arc (some x.1)}
  | .hide key => {s with
      nodes := Function.update s.nodes key none,
      edges := fun arc => if lead arc = true ∧ arc.touches key then none else s.edges arc}

def run (lead : Arc → Bool) (s : Scene) (script : List (Bool × Action)) : Scene := script.foldl (act lead) s

/-! What an action writes, cell by cell. -/

def change (q : Str × Str) (x : Bool × Action) : Change :=
  match x.2 with
  | .node key c => if partitionAt key = q then c else {}
  | _ => {}

def nodeEffect (key : Str) (x : Bool × Action) : Option (Option Mark) :=
  match x.2 with
  | .node key' _ => if key' = key then some (some (.process x.1)) else none
  | .fileNode key' name => if key' = key then some (some (.file name x.1)) else none
  | .edge _ => none
  | .hide key' => if key' = key then some none else none

def edgeEffect (lead : Arc → Bool) (arc : Arc) (x : Bool × Action) : Option (Option Bool) :=
  match x.2 with
  | .edge arc' => if arc'.link ≠ .chown ∧ arc' = arc then some (some x.1) else none
  | .hide key => if lead arc = true ∧ arc.touches key then some none else none
  | _ => none

section
variable (lead : Arc → Bool)

theorem attrs_act (s : Scene) (x : Bool × Action) (q : Str × Str) : (s.act lead x).attrs q = (change q x).on (s.attrs q) := by
  obtain ⟨lit,action⟩ := x
  have same : ∀ cur : Attrs, Change.on {} cur = cur := fun _ => rfl
  cases action with
  | node key c =>
    by_cases here : partitionAt key = q
    · subst here
      simp [act,change]
    · simp [act,change,here,Function.update_of_ne (Ne.symm here),same]
  | fileNode key name => simp [act,change,same]
  | edge arc =>
    by_cases chown : arc.link = .chown <;> simp [act,change,chown,same]
  | hide key => simp [act,change,same]

def exeCell (q : Str × Str) : Cell (act lead) Str where
  read s := (s.attrs q).exe
  effect x := (change q x).exe
  read_step s x := by rw [attrs_act]; rfl

def euidCell (q : Str × Str) : Cell (act lead) (Option Str) where
  read s := (s.attrs q).euid
  effect x := (change q x).uid.map some
  read_step s x := by
    rw [attrs_act,Change.on]
    cases (change q x).uid <;> rfl

def workingDirCell (q : Str × Str) : Cell (act lead) (Option Str) where
  read s := (s.attrs q).workingDir
  effect x := (change q x).workingDir.map some
  read_step s x := by
    rw [attrs_act,Change.on]
    cases (change q x).workingDir <;> rfl

def nodeCell (key : Str) : Cell (act lead) (Option Mark) where
  read s := s.nodes key
  effect := nodeEffect key
  read_step s x := by
    obtain ⟨lit,action⟩ := x
    cases action with
    | edge arc => by_cases chown : arc.link = .chown <;> simp [act,nodeEffect,chown]
    | _ key' =>
      by_cases here : key' = key
      · subst here
        simp [act,nodeEffect]
      · simp [act,nodeEffect,here,Function.update_of_ne (Ne.symm here)]

def edgeCell (arc : Arc) : Cell (act lead) (Option Bool) where
  read s := s.edges arc
  effect := edgeEffect lead arc
  read_step s x := by
    obtain ⟨lit,action⟩ := x
    cases action with
    | node key c => rfl
    | fileNode key name => rfl
    | edge arc' =>
      by_cases chown : arc'.link = .chown
      · simp [act,edgeEffect,chown]
      · by_cases here : arc' = arc
        · subst here
          simp [act,edgeEffect,chown]
        · simp [act,edgeEffect,chown,here,Function.update_of_ne (Ne.symm here)]
    | hide key => by_cases touch : lead arc = true ∧ arc.touches key <;> simp [act,edgeEffect,touch]

end

/-- Whether an action is highlighted makes no difference to where it writes. -/
theorem nodeEffect_isSome (key : Str) (lit lit' : Bool) (action : Action) :
    (nodeEffect key (lit,action)).isSome = (nodeEffect key (lit',action)).isSome := by
  cases action with
  | edge arc => rfl
  | hide key' => rfl
  | _ key' =>
    simp only [nodeEffect]
    split_ifs <;> rfl

theorem edgeEffect_isSome (lead : Arc → Bool) (arc : Arc) (lit lit' : Bool) (action : Action) :
    (edgeEffect lead arc (lit,action)).isSome = (edgeEffect lead arc (lit',action)).isSome := by
  cases action with
  | edge arc' =>
    simp only [edgeEffect]
    split_ifs <;> rfl
  | _ key => rfl

variable {lead lead' : Arc → Bool}

theorem read_rerun {ν : Type} (c : Cell (act lead) ν) (s : Scene) {first later : List (Bool × Action)}
    (blind : ∀ lit lit' action, (c.effect (lit,action)).isSome = (c.effect (lit',action)).isSome)
    (again : ∀ x ∈ first, ∃ lit, (lit,x.2) ∈ later) :
    c.read ((s.run lead first).run lead later) = c.read (s.run lead later) := by
  apply c.read_rerun
  intro x member wrote
  obtain ⟨lit,there⟩ := again x member
  exact ⟨(lit,x.2),there,(blind lit x.1 x.2).trans wrote⟩

/-- A script that repeats the actions of an earlier one leaves what it leaves without that one. -/
theorem run_rerun (s : Scene) {first later : List (Bool × Action)}
    (again : ∀ x ∈ first, ∃ lit, (lit,x.2) ∈ later) : (s.run lead first).run lead later = s.run lead later := by
  apply Scene.ext
  · funext q
    have exe := read_rerun (exeCell lead q) s (fun _ _ _ => rfl) again
    have euid := read_rerun (euidCell lead q) s (fun _ _ _ => rfl) again
    have workingDir := read_rerun (workingDirCell lead q) s (fun _ _ _ => rfl) again
    exact Attrs.ext exe euid workingDir
  · funext key
    exact read_rerun (nodeCell lead key) s (nodeEffect_isSome key) again
  · funext arc
    exact read_rerun (edgeCell lead arc) s (edgeEffect_isSome lead arc) again

/-- What is shown of the nodes does not depend on the attributes and the edges. -/
theorem run_nodes {s : Scene} (s' : Scene) (same : s.nodes = s'.nodes) (script : List (Bool × Action)) :
    (s.run lead script).nodes = (s'.run lead' script).nodes := by
  funext key
  have ran := (nodeCell lead key).read_run s script
  have ran' := (nodeCell lead' key).read_run s' script
  exact ran.trans ((congrArg _ (congrFun same key)).trans ran'.symm)

end Scene

namespace Artist
variable (a : Artist)

/-- Nothing in view, and every process as it was at first. -/
def blank : Scene := ⟨a.initial,fun _ => none,fun _ => none⟩

/-- The actions of an event; one for which the drawing fails has none. -/
def actions (e : Event) : List Action := (a.animationActions e).getD []

/-- The actions up to event `i`, those of that event highlighted. -/
def script (es : List Event) (i : Nat) : List (Bool × Action) :=
  ((es.take i).flatMap a.actions).map (Prod.mk false) ++ (es[i]?.toList.flatMap a.actions).map (Prod.mk true)

theorem script_take (es : List Event) (i : Nat) : a.script (es.take (i + 1)) i = a.script es i := by
  simp [script,List.take_take]

theorem script_succ {es : List Event} {i : Nat} {x : Bool × Action} (member : x ∈ a.script es i) :
    ∃ lit, (lit,x.2) ∈ a.script es (i + 1) := by
  refine ⟨false,?_⟩
  simp only [script,List.mem_append,List.mem_map,List.mem_flatMap] at member ⊢
  refine .inl ⟨x.2,?_,rfl⟩
  rcases member with ⟨action,⟨e,before,its⟩,rfl⟩ | ⟨action,⟨e,here,its⟩,rfl⟩
  · exact ⟨e,List.take_subset_take_left es (Nat.le_succ i) before,its⟩
  · have at_i : es[i]? = some e := by simpa using here
    refine ⟨e,List.mem_iff_getElem?.mpr ⟨i,?_⟩,its⟩
    rw [List.getElem?_take_of_succ]
    exact at_i

/-- A node without a future: one of a group has the look of a single process. -/
def render (n : Names) (s : Scene) (key : Str) : Mark → Option DotNode
  | .process lit => (a.trace key).map fun t =>
      let cur := s.attrs (partitionAt key)
      ⟨⟨(n.exeInitial.get cur.exe).getD [],(n.uidColor.get cur.euid).getD .white⟩,.filled,
        if lit then 3 else 1,if lit then .blue else .white,.circle,
        .process (partitionAt key).1 cur.exe cur.euid t.ppid t.parentExe cur.workingDir⟩
  | .file name lit => some
      ⟨⟨['F'],.green⟩,.filled,if lit then 3 else 1,if lit then .blue else .white,.circle,.file name⟩

def drawn (link : Link) (lit : Bool) : DotEdge :=
  let edge := DotEdge.create.show link
  {edge with penwidth := if lit then 3 else 1, color := if lit then .blue else .black}

def depict (n : Names) (s : Scene) : Picture :=
  ⟨fun key => (s.nodes key).bind (a.render n s key),fun arc => (s.edges arc).map (drawn arc.link)⟩

/-- The fold of some events over the initial picture, with the letters and colours that they
ask for. An exit hides every edge of its process, as `__hide_node` says. -/
def past (es : List Event) : Option Picture :=
  (a.drawStatic es).map fun s => a.depict s.names (a.blank.run everyEdge (a.script es (es.length - 1)))

/-- Nothing in view, but every process as the static drawing of all events leaves it. -/
def finished (es : List Event) : Scene :=
  {a.blank with attrs := (a.blank.run everyEdge ((es.flatMap staticActions).map (Prod.mk false))).attrs}

end Artist

end SelfPropelled.SecStar
