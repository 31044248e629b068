import SelfPropelled.SecStar.Scene

/-! What the calls of the drawing keep: the letters and colours that were given, and the face
of each node, which is that of its process. -/

namespace SelfPropelled.SecStar
open Library

namespace Names
variable {lower : Char → Str} {n n' n'' : Names} {f f' : Face}

/-- Letters and colours that were given stay. -/
structure Le (n n' : Names) : Prop where
  letters : n.exeInitial.Extends n'.exeInitial
  colours : n.uidColor.Extends n'.uidColor

theorem Le.refl (n : Names) : n.Le n := ⟨.refl _,.refl _⟩

theorem Le.trans (first : n.Le n') (second : n'.Le n'') : n.Le n'' :=
  ⟨first.letters.trans second.letters,first.colours.trans second.colours⟩

theorem getExeInitial_spec {exe initial : Str} (done : n.getExeInitial lower exe = some (initial,n')) :
    n.Le n' ∧ n'.exeInitial.get exe = some initial := by
  unfold getExeInitial at done
  cases found : n.exeInitial.get exe with
  | some letter =>
    rw [found] at done
    cases done
    exact ⟨.refl n,found⟩
  | none =>
    rw [found] at done
    cases left : strippedExe exe with
    | nil => simp [left] at done
    | cons c rest =>
      simp only [left,Option.map_eq_some_iff] at done
      obtain ⟨letter,_,made⟩ := done
      cases made
      refine ⟨⟨Dict.extends_set found _,.refl _⟩,?_⟩
      rw [Dict.get_set,if_pos rfl]

theorem getColor_spec (n : Names) (uid : Option Str) :
    n.Le (n.getColor uid).2 ∧ (n.getColor uid).2.uidColor.get uid = some (n.getColor uid).1 := by
  unfold getColor
  cases found : n.uidColor.get uid with
  | some color => exact ⟨.refl n,found⟩
  | none =>
    refine ⟨⟨.refl _,Dict.extends_set found _⟩,?_⟩
    rw [Dict.get_set,if_pos rfl]

/-- The label and the colour are those of a process with such attributes. -/
structure Shows (n : Names) (f : Face) (cur : Attrs) : Prop where
  label : n.exeInitial.get cur.exe = some f.label
  fillcolor : n.uidColor.get cur.euid = some f.fillcolor

theorem Shows.mono {cur : Attrs} (shows : n.Shows f cur) (le : n.Le n') : n'.Shows f cur :=
  ⟨le.letters _ _ shows.label,le.colours _ _ shows.fillcolor⟩

theorem create_spec {t : Trace} (done : n.create lower t = some (f,n')) : n.Le n' ∧ n'.Shows f t.initial := by
  simp only [create,Option.map_eq_some_iff] at done
  obtain ⟨⟨letter,n₁⟩,given,made⟩ := done
  cases made
  obtain ⟨first,label⟩ := getExeInitial_spec given
  obtain ⟨second,color⟩ := n₁.getColor_spec t.initEuid
  exact ⟨first.trans second,second.letters _ _ label,color⟩

theorem repaint_spec {c : Change} (done : n.repaint lower c f = some (f',n')) :
    n.Le n' ∧ (∀ cur, n.Shows f cur → n'.Shows f' (c.on cur)) ∧
      (∀ exe, c.exe = some exe → (n'.exeInitial.get exe).isSome = true) ∧
      ∀ uid, c.uid = some uid → (n'.uidColor.get (some uid)).isSome = true := by
  simp only [repaint,Option.map_eq_some_iff] at done
  obtain ⟨⟨letter,n₁⟩,given,made⟩ := done
  cases made
  have first : n.Le n₁ ∧ (∀ cur, n.Shows f cur → n₁.exeInitial.get (c.on cur).exe = some letter) ∧
      ∀ exe, c.exe = some exe → n₁.exeInitial.get exe = some letter := by
    cases exe : c.exe with
    | none =>
      rw [exe,setLabel] at given
      cases given
      refine ⟨.refl n,fun cur shows => ?_,fun _ no => by cases no⟩
      rw [Change.on,exe]
      exact shows.label
    | some exe' =>
      rw [exe] at given
      obtain ⟨le,label⟩ := getExeInitial_spec given
      refine ⟨le,fun cur _ => ?_,fun _ same => by cases same; exact label⟩
      rw [Change.on,exe]
      exact label
  obtain ⟨le₁,label,asked⟩ := first
  cases uid : c.uid with
  | none =>
    refine ⟨le₁,fun cur shows => ⟨label cur shows,?_⟩,fun exe same => ?_,fun _ no => by cases no⟩
    · rw [Change.on,uid]
      exact le₁.colours _ _ shows.fillcolor
    · exact Option.isSome_of_eq_some (asked exe same)
  | some uid' =>
    obtain ⟨le₂,color⟩ := n₁.getColor_spec (some uid')
    refine ⟨le₁.trans le₂,fun cur shows => ⟨le₂.letters _ _ (label cur shows),?_⟩,fun exe same => ?_,
      fun _ same => ?_⟩
    · rw [Change.on,uid]
      exact color
    · exact Option.isSome_of_eq_some (le₂.letters _ _ (asked exe same))
    · cases same
      exact Option.isSome_of_eq_some color

end Names

/-- A key is found again in what it is split into. -/
theorem partitionAt_inj {key key' : Str} (here : '@' ∈ key) (there : '@' ∈ key')
    (same : partitionAt key = partitionAt key') : key = key' := by
  have rebuilt : ∀ {s : Str}, '@' ∈ s → s = (partitionAt s).1 ++ '@' :: (partitionAt s).2 := by
    intro s member
    have rest : s.dropWhile (· ≠ '@') = '@' :: (s.dropWhile (· ≠ '@')).drop 1 := by
      have found : s.dropWhile (· ≠ '@') ≠ [] := by
        rw [Ne,List.dropWhile_eq_nil_iff]
        exact fun all => by simpa using all '@' member
      obtain ⟨c,tail,split⟩ := List.exists_cons_of_ne_nil found
      have head := List.head_dropWhile_not (fun c => decide (c ≠ '@')) found
      simp only [split,List.head_cons,decide_eq_false_iff_not,not_not] at head
      rw [split,head,List.drop_one,List.tail_cons]
    rw [partitionAt,← rest,List.takeWhile_append_dropWhile]
  rw [rebuilt here,rebuilt there,same]

theorem at_mem_pidhost (pid host : Option Str) : '@' ∈ pidhostOf pid host := by simp [pidhostOf]

namespace Event

/-- The keys of the processes that an event's branch gets. -/
def processes (e : Event) : List Str :=
  e.pidhost :: match e.kind with
    | .connect host _ pid => [pidhostOf (some pid) host]
    | .send host pid => [pidhostOf pid host]
    | .fork child => [pidhostOf child e.host]
    | .clone child => [pidhostOf child e.host]
    | _ => []

def files (e : Event) : List Str :=
  match e.kind with
  | .open file .. => [pidhostOf file e.host]
  | .chown file .. => [pidhostOf file e.host]
  | _ => []

end Event

def OnlyProcess (es : List Event) (key : Str) : Prop := ∀ e ∈ es, key ∉ e.files

def OnlyFile (es : List Event) (key : Str) : Prop := ∀ e ∈ es, key ∉ e.processes

/-- The keys of an action are those of the event. -/
def Action.On (e : Event) : Action → Prop
  | .node key _ | .hide key => key ∈ e.processes
  | .fileNode key _ => key ∈ e.files
  | .edge _ => True

theorem at_mem_processes {e : Event} {key : Str} (its : key ∈ e.processes) : '@' ∈ key := by
  unfold Event.processes at its
  rcases List.mem_cons.mp its with rfl | other
  · exact at_mem_pidhost e.pid e.host
  · split at other <;> simp only [List.mem_singleton,List.not_mem_nil] at other
    all_goals
      rw [other]
      exact at_mem_pidhost _ _

/-- An action of one of the events. -/
def Action.Of (es : List Event) : Action → Prop
  | .node key _ | .hide key => '@' ∈ key ∧ ∃ e ∈ es, key ∈ e.processes
  | .fileNode key _ => ∃ e ∈ es, key ∈ e.files
  | .edge _ => True

namespace Canvas
variable (s : Canvas)

theorem get_onNode (key key' : Str) (f : DotNode → DotNode) : (s.onNode key f).nodeMap.get key' =
    if key = key' then (s.nodeMap.get key').map f else s.nodeMap.get key' := by
  unfold onNode
  cases found : s.nodeMap.get key with
  | none =>
    by_cases same : key = key'
    · subst same
      simp [found]
    · simp [same]
  | some node =>
    rw [Dict.get_set]
    by_cases same : key = key'
    · subst same
      simp [found]
    · simp [same]

theorem get_onEdge (arc arc' : Arc) (f : DotEdge → DotEdge) : (s.onEdge arc f).edgeMap.get arc' =
    if arc = arc' then (s.edgeMap.get arc').map f else s.edgeMap.get arc' := by
  unfold onEdge
  cases found : s.edgeMap.get arc with
  | none =>
    by_cases same : arc = arc'
    · subst same
      simp [found]
    · simp [same]
  | some edge =>
    rw [Dict.get_set]
    by_cases same : arc = arc'
    · subst same
      simp [found]
    · simp [same]

theorem onNode_eq (key : Str) (f : DotNode → DotNode) : ∃ nodeMap, s.onNode key f = {s with nodeMap := nodeMap} := by
  unfold onNode
  cases s.nodeMap.get key with
  | none => exact ⟨s.nodeMap,rfl⟩
  | some node => exact ⟨_,rfl⟩

theorem onEdge_eq (arc : Arc) (f : DotEdge → DotEdge) : ∃ edgeMap, s.onEdge arc f = {s with edgeMap := edgeMap} := by
  unfold onEdge
  cases s.edgeMap.get arc with
  | none => exact ⟨s.edgeMap,rfl⟩
  | some edge => exact ⟨_,rfl⟩

/-- Only how nodes and edges look may differ, not the faces of the nodes. -/
structure Restyled (s s' : Canvas) : Prop where
  names : s'.names = s.names
  cur : s'.cur = s.cur
  faces : ∀ key, (s'.nodeMap.get key).map DotNode.toFace = (s.nodeMap.get key).map DotNode.toFace

variable {s}

theorem Restyled.trans {s' s'' : Canvas} (first : s.Restyled s') (second : s'.Restyled s'') : s.Restyled s'' :=
  ⟨second.names.trans first.names,second.cur.trans first.cur,fun key => (second.faces key).trans (first.faces key)⟩

theorem onNode_restyled (key : Str) {f : DotNode → DotNode} (face : ∀ n, (f n).toFace = n.toFace) :
    s.Restyled (s.onNode key f) := by
  obtain ⟨nodeMap,made⟩ := s.onNode_eq key f
  refine ⟨by rw [made],by rw [made],fun key' => ?_⟩
  rw [get_onNode]
  split_ifs
  · rw [Option.map_map]
    exact congrArg (Option.map · _) (funext face)
  · rfl

theorem onEdge_restyled (arc : Arc) (f : DotEdge → DotEdge) : s.Restyled (s.onEdge arc f) := by
  obtain ⟨edgeMap,made⟩ := s.onEdge_eq arc f
  rw [made]
  exact ⟨rfl,rfl,fun _ => rfl⟩

theorem present_restyled (lit : Bool) (act : Action) : s.Restyled (s.present lit act) := by
  have face : ∀ n : DotNode, (n.present lit).toFace = n.toFace := by
    intro n
    cases lit <;> rfl
  cases act with
  | node key c => exact onNode_restyled key face
  | fileNode key name => exact onNode_restyled key face
  | edge arc => exact onEdge_restyled arc _
  | hide key => exact ⟨rfl,rfl,fun _ => rfl⟩

theorem hideEdges_restyled (edges : List Arc) : s.Restyled (edges.foldl (fun s arc => s.onEdge arc DotEdge.hide) s) := by
  induction edges generalizing s with
  | nil => exact ⟨rfl,rfl,fun _ => rfl⟩
  | cons arc edges ih => exact (onEdge_restyled arc _).trans ih

theorem hideNode_restyled {s' : Canvas} {key : Str} (done : s.hideNode key = some s') : s.Restyled s' := by
  obtain ⟨edges,_,rfl⟩ := Option.map_eq_some_iff.mp done
  have node : s.Restyled (s.onNode key DotNode.hide) := onNode_restyled key fun _ => rfl
  exact node.trans (hideEdges_restyled edges)

theorem prepared_restyled : s.Restyled s.makeAllInvisible.buildNodeEdgesMap := by
  refine ⟨rfl,rfl,fun key => ?_⟩
  rw [buildNodeEdgesMap,makeAllInvisible,Dict.get_map_snd,Option.map_map]
  rfl

end Canvas

section
variable {a : Artist} {es : List Event} {s s' : Canvas}

/-- A process without a node is as it was at first; one with a node has its face from what its
trace holds, and a letter and a colour for what it was at first. -/
structure Sound (a : Artist) (es : List Event) (s : Canvas) : Prop where
  unseen : ∀ key, '@' ∈ key → s.nodeMap.get key = none → s.cur (partitionAt key) = a.initial (partitionAt key)
  process : ∀ key n, '@' ∈ key → s.nodeMap.get key = some n → OnlyProcess es key →
    s.names.Shows n.toFace (s.cur (partitionAt key))
  known : ∀ key n, '@' ∈ key → s.nodeMap.get key = some n → OnlyProcess es key →
    ∃ f, s.names.Shows f (a.initial (partitionAt key))
  file : ∀ key n, s.nodeMap.get key = some n → OnlyFile es key → n.toFace = ⟨['F'],.green⟩

theorem Sound.restyled (held : Sound a es s) (same : s.Restyled s') : Sound a es s' := by
  have before : ∀ key n, s'.nodeMap.get key = some n → ∃ n₀, s.nodeMap.get key = some n₀ ∧ n₀.toFace = n.toFace := by
    intro key n found
    have face := same.faces key
    rw [found] at face
    exact Option.map_eq_some_iff.mp face.symm
  constructor
  · intro key is_key none
    have face := same.faces key
    rw [none,Option.map_none,eq_comm,Option.map_eq_none_iff] at face
    rw [same.cur]
    exact held.unseen key is_key face
  · intro key n is_key found only
    obtain ⟨n₀,there,face⟩ := before key n found
    rw [same.names,same.cur,← face]
    exact held.process key n₀ is_key there only
  · intro key n is_key found only
    obtain ⟨n₀,there,_⟩ := before key n found
    rw [same.names]
    exact held.known key n₀ is_key there only
  · intro key n found only
    obtain ⟨n₀,there,face⟩ := before key n found
    rw [← face]
    exact held.file key n₀ there only

theorem trace_initial {key : Str} {t : Trace} (found : a.trace key = some t) : a.initial (partitionAt key) = t.initial := by
  unfold Artist.trace at found
  rw [Artist.initial,found]
  rfl

theorem dress_face (a : Artist) (t : Trace) (pid : Str) (cur : Attrs) (face : Face) (style : Style) :
    (a.dress t pid cur face style).toFace = face := by
  unfold Artist.dress
  cases a.group t <;> rfl

/-- What a node call does, with the face that the node had or is created with. -/
theorem getNode_eq {key : Str} {c : Change} (done : a.getNode key c s = some s') :
    ∃ t face style names face' names', a.trace key = some t ∧ a.base t key s = some (face,style,names) ∧
      names.repaint a.lower c face = some (face',names') ∧
      s' = {s with
        nodeMap := s.nodeMap.set key (a.dress t (partitionAt key).1 (c.on (s.cur (partitionAt key))) face' style)
        names := names'
        cur := Function.update s.cur (partitionAt key) (c.on (s.cur (partitionAt key)))} := by
  simp only [Artist.getNode,Option.bind_eq_bind,Option.bind_eq_some_iff] at done
  obtain ⟨t,trace,⟨face,style,names⟩,base,⟨face',names'⟩,paint,made⟩ := done
  cases made
  exact ⟨t,face,style,names,face',names',trace,base,paint,rfl⟩

/-- The names only grow in a node call, and have all that it asks for. -/
theorem getNode_names {key : Str} {c : Change} (done : a.getNode key c s = some s') : s.names.Le s'.names ∧
    (∀ exe, c.exe = some exe → (s'.names.exeInitial.get exe).isSome = true) ∧
      ∀ uid, c.uid = some uid → (s'.names.uidColor.get (some uid)).isSome = true := by
  obtain ⟨t,face,style,names,face',names',_,base,paint,rfl⟩ := getNode_eq done
  obtain ⟨le,_,exe,uid⟩ := Names.repaint_spec paint
  refine ⟨?_,exe,uid⟩
  unfold Artist.base at base
  cases old : s.nodeMap.get key with
  | some node =>
    rw [old] at base
    cases base
    exact le
  | none =>
    rw [old] at base
    obtain ⟨⟨f,n⟩,created,made⟩ := Option.map_eq_some_iff.mp base
    cases made
    exact (Names.create_spec created).1.trans le

theorem Sound.getNode {key : Str} {c : Change} (held : Sound a es s) (is_key : '@' ∈ key)
    (mine : ∃ e ∈ es, key ∈ e.processes) (done : a.getNode key c s = some s') : Sound a es s' := by
  have le := (getNode_names done).1
  obtain ⟨t,face,style,names,face',names',trace,base,paint,rfl⟩ := getNode_eq done
  obtain ⟨grown,painted,_⟩ := Names.repaint_spec paint
  have elsewhere : ∀ key', '@' ∈ key' → key ≠ key' → ∀ v : Attrs,
      Function.update s.cur (partitionAt key) v (partitionAt key') = s.cur (partitionAt key') := by
    intro key' is_key' other v
    exact Function.update_of_ne (fun same => other (partitionAt_inj is_key' is_key same).symm) v s.cur
  -- the face before the change, and that the names know the process
  have start : OnlyProcess es key → names.Shows face (s.cur (partitionAt key)) ∧
      ∃ f, names.Shows f (a.initial (partitionAt key)) := by
    intro only
    unfold Artist.base at base
    cases old : s.nodeMap.get key with
    | some node =>
      rw [old] at base
      cases base
      exact ⟨held.process key node is_key old only,held.known key node is_key old only⟩
    | none =>
      rw [old] at base
      obtain ⟨⟨f,n⟩,created,made⟩ := Option.map_eq_some_iff.mp base
      cases made
      have shows := (Names.create_spec created).2
      rw [← trace_initial trace] at shows
      rw [held.unseen key is_key old]
      exact ⟨shows,_,shows⟩
  constructor
  · intro key' is_key' none
    dsimp only at none ⊢
    rw [Dict.get_set] at none
    split_ifs at none with same
    rw [elsewhere key' is_key' same]
    exact held.unseen key' is_key' none
  · intro key' n is_key' found only
    dsimp only at found ⊢
    rw [Dict.get_set] at found
    split_ifs at found with same
    · subst same
      cases found
      rw [dress_face,Function.update_self]
      exact painted _ (start only).1
    · rw [elsewhere key' is_key' same]
      exact (held.process key' n is_key' found only).mono le
  · intro key' n is_key' found only
    dsimp only at found ⊢
    rw [Dict.get_set] at found
    split_ifs at found with same
    · subst same
      obtain ⟨f,shows⟩ := (start only).2
      exact ⟨f,shows.mono grown⟩
    · obtain ⟨f,shows⟩ := held.known key' n is_key' found only
      exact ⟨f,shows.mono le⟩
  · intro key' n found only
    dsimp only at found
    rw [Dict.get_set] at found
    split_ifs at found with same
    · subst same
      obtain ⟨e,member,its⟩ := mine
      exact absurd its (only e member)
    · exact held.file key' n found only

theorem Sound.getFileNode {key : Str} {name : Option Str} (held : Sound a es s)
    (mine : ∃ e ∈ es, key ∈ e.files) : Sound a es (s.getFileNode key name) := by
  obtain ⟨e,member,its⟩ := mine
  constructor
  · intro key' is_key' none
    simp only [Canvas.getFileNode,Dict.get_set] at none
    split_ifs at none
    exact held.unseen key' is_key' none
  · intro key' n is_key' found only
    simp only [Canvas.getFileNode,Dict.get_set] at found
    split_ifs at found with same
    · exact absurd (same ▸ its) (only e member)
    · exact held.process key' n is_key' found only
  · intro key' n is_key' found only
    simp only [Canvas.getFileNode,Dict.get_set] at found
    split_ifs at found with same
    · exact absurd (same ▸ its) (only e member)
    · exact held.known key' n is_key' found only
  · intro key' n found only
    simp only [Canvas.getFileNode,Dict.get_set] at found
    split_ifs at found with same
    · cases found
      cases old : s.nodeMap.get key with
      | none => rfl
      | some node => exact held.file key node old (same ▸ only)
    · exact held.file key' n found only

theorem Sound.perform {act : Action} (held : Sound a es s) (mine : act.Of es) (done : a.perform s act = some s') :
    Sound a es s' := by
  cases act with
  | node key c => exact held.getNode mine.1 mine.2 done
  | fileNode key name =>
    cases done
    exact held.getFileNode mine
  | edge arc =>
    cases done
    exact held.restyled ⟨rfl,rfl,fun _ => rfl⟩
  | hide key =>
    obtain ⟨s₁,got,hidden⟩ := Option.bind_eq_some_iff.mp done
    exact (held.getNode mine.1 mine.2 got).restyled (Canvas.hideNode_restyled hidden)

theorem perform_names {act : Action} (done : a.perform s act = some s') : s.names.Le s'.names := by
  cases act with
  | node key c => exact (getNode_names done).1
  | fileNode key name =>
    cases done
    exact .refl _
  | edge arc =>
    cases done
    exact .refl _
  | hide key =>
    obtain ⟨s₁,got,hidden⟩ := Option.bind_eq_some_iff.mp done
    rw [(Canvas.hideNode_restyled hidden).names]
    exact (getNode_names got).1

end

end SelfPropelled.SecStar
