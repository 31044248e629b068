import SelfPropelled.SecStar.DrawingSteps

/-! Each frame depicts a scene: that of its events, but with the processes as the static
drawing of all events left them. -/

namespace SelfPropelled.SecStar
open Library

def Headed (s : Canvas) : Prop := ∀ arc e, s.edgeMap.get arc = some e → e.arrowhead = (DotEdge.create.show arc.link).arrowhead

theorem show_arrowhead {link : Link} {e : DotEdge} (headed : e.arrowhead = (DotEdge.create.show link).arrowhead) :
    (e.show link).arrowhead = (DotEdge.create.show link).arrowhead := by
  cases link <;> first | rfl | exact headed

section
variable {a : Artist} {es : List Event} {s s' : Canvas} {S : Scene} {act : Action}

/-- What the names hold of what a call asked for. -/
def Asked (a : Artist) (es : List Event) (n : Names) : Action → Prop
  | .node key c => (∀ exe, c.exe = some exe → (n.exeInitial.get exe).isSome = true) ∧
      (∀ uid, c.uid = some uid → (n.uidColor.get (some uid)).isSome = true) ∧
      (OnlyProcess es key → ∃ f, n.Shows f (a.initial (partitionAt key)))
  | _ => True

theorem Asked.mono {n n' : Names} (asked : Asked a es n act) (le : n.Le n') : Asked a es n' act := by
  cases act with
  | node key c =>
    obtain ⟨exe,uid,known⟩ := asked
    refine ⟨fun e same => ?_,fun u same => ?_,fun only => ?_⟩
    · obtain ⟨letter,found⟩ := Option.isSome_iff_exists.mp (exe e same)
      exact Option.isSome_of_eq_some (le.letters _ _ found)
    · obtain ⟨color,found⟩ := Option.isSome_iff_exists.mp (uid u same)
      exact Option.isSome_of_eq_some (le.colours _ _ found)
    · obtain ⟨f,shows⟩ := known only
      exact ⟨f,shows.mono le⟩
  | _ => trivial

theorem perform_asked (held : Sound a es s) (mine : act.Of es) (done : a.perform s act = some s') :
    Asked a es s'.names act := by
  cases act with
  | node key c =>
    obtain ⟨_,exe,uid⟩ := getNode_names done
    obtain ⟨n,there⟩ : ∃ n, s'.nodeMap.get key = some n := by
      obtain ⟨t,face,style,names,face',names',_,_,_,rfl⟩ := getNode_eq done
      rw [Dict.get_set,if_pos rfl]
      exact ⟨_,rfl⟩
    exact ⟨exe,uid,(held.getNode mine.1 mine.2 done).known key n mine.1 there⟩
  | _ => trivial

theorem perform_attrs (lead : Arc → Bool) (lit : Bool) (cur : s.cur = S.attrs) (done : a.perform s act = some s') :
    s'.cur = (S.act lead (lit,act)).attrs := by
  cases act with
  | node key c =>
    obtain ⟨t,face,style,names,face',names',_,_,_,rfl⟩ := getNode_eq done
    simp only [Scene.act,← cur]
  | fileNode key name =>
    cases done
    exact cur
  | edge arc =>
    cases done
    have same : (s.getEdge arc).cur = S.attrs := cur
    by_cases chown : arc.link = .chown <;> simp [Scene.act,chown,same]
  | hide key =>
    obtain ⟨s₁,got,hidden⟩ := Option.bind_eq_some_iff.mp done
    obtain ⟨t,face,style,names,face',names',_,_,_,rfl⟩ := getNode_eq got
    rw [(Canvas.hideNode_restyled hidden).cur]
    exact (Function.update_eq_self _ _).trans cur

theorem get_hideEdges (edges : List Arc) (s : Canvas) (arc : Arc) :
    (edges.foldl (fun s arc => s.onEdge arc DotEdge.hide) s).edgeMap.get arc =
      if arc ∈ edges then (s.edgeMap.get arc).map DotEdge.hide else s.edgeMap.get arc := by
  induction edges generalizing s with
  | nil => simp
  | cons arc₀ edges ih =>
    rw [List.foldl_cons,ih,Canvas.get_onEdge]
    by_cases here : arc₀ = arc
    · subst here
      by_cases later : arc₀ ∈ edges
      · simp only [later,if_true,List.mem_cons,or_true,Option.map_map]
        rfl
      · simp [later]
    · simp [here,Ne.symm here]

theorem hideEdges_eq (edges : List Arc) (s : Canvas) :
    ∃ edgeMap, edges.foldl (fun s arc => s.onEdge arc DotEdge.hide) s = {s with edgeMap := edgeMap} := by
  induction edges generalizing s with
  | nil => exact ⟨s.edgeMap,rfl⟩
  | cons arc edges ih =>
    obtain ⟨m,made⟩ := s.onEdge_eq arc DotEdge.hide
    obtain ⟨edgeMap,rest⟩ := ih (s.onEdge arc DotEdge.hide)
    refine ⟨edgeMap,?_⟩
    rw [List.foldl_cons,rest,made]

/-- What hiding a node does to the nodes and the edges. -/
theorem hideNode_eq {key : Str} (done : s.hideNode key = some s') : ∃ edges, s.nodeEdgesMap.get key = some edges ∧
    s'.nodeEdgesMap = s.nodeEdgesMap ∧
    (∀ key', s'.nodeMap.get key' = if key = key' then (s.nodeMap.get key').map DotNode.hide else s.nodeMap.get key') ∧
    ∀ arc, s'.edgeMap.get arc = if arc ∈ edges then (s.edgeMap.get arc).map DotEdge.hide else s.edgeMap.get arc := by
  obtain ⟨edges,found,rfl⟩ := Option.map_eq_some_iff.mp done
  obtain ⟨nodeMap,node⟩ := s.onNode_eq key DotNode.hide
  obtain ⟨edgeMap,edge⟩ := hideEdges_eq edges (s.onNode key DotNode.hide)
  have same : (s.onNode key DotNode.hide).edgeMap = s.edgeMap := by rw [node]
  refine ⟨edges,found,?_,fun key' => ?_,fun arc => ?_⟩
  · rw [edge,node]
  · rw [edge]
    exact s.get_onNode key key' DotNode.hide
  · rw [get_hideEdges,same]

/-- A call adds no edge but its own, and leaves the heads as they are. -/
theorem perform_edges (done : a.perform s act = some s') : (∀ arc, (s'.edgeMap.get arc).isSome = true ↔
    (s.edgeMap.get arc).isSome = true ∨ act = .edge arc) ∧ (Headed s → Headed s') := by
  cases act with
  | node key c =>
    obtain ⟨t,face,style,names,face',names',_,_,_,rfl⟩ := getNode_eq done
    simp [Headed]
  | fileNode key name =>
    cases done
    simp [Headed,Canvas.getFileNode]
  | edge arc₀ =>
    cases done
    refine ⟨fun arc => ?_,fun headed arc e found => ?_⟩
    · simp only [Canvas.getEdge,Dict.get_set]
      by_cases here : arc₀ = arc <;> simp [here]
    · simp only [Canvas.getEdge,Dict.get_set] at found
      split_ifs at found with here
      · subst here
        cases found
        cases old : s.edgeMap.get arc₀ with
        | none => rfl
        | some e => exact show_arrowhead (headed arc₀ e old)
      · exact headed arc e found
  | hide key =>
    obtain ⟨s₁,got,hidden⟩ := Option.bind_eq_some_iff.mp done
    obtain ⟨t,face,style,names,face',names',_,_,_,rfl⟩ := getNode_eq got
    obtain ⟨edges,_,_,_,edge⟩ := hideNode_eq hidden
    refine ⟨fun arc => ?_,fun headed arc e found => ?_⟩
    · rw [edge]
      split_ifs <;> simp
    · rw [edge] at found
      split_ifs at found
      · obtain ⟨e₀,there,rfl⟩ := Option.map_eq_some_iff.mp found
        exact headed arc e₀ there
      · exact headed arc e found

/-- What the static drawing of some actions leaves. -/
theorem performs_spec (lead : Arc → Bool) {acts : List Action} (mine : ∀ act ∈ acts, act.Of es) (held : Sound a es s)
    (cur : s.cur = S.attrs) (headed : Headed s) (done : acts.foldlM a.perform s = some s') :
    Sound a es s' ∧ s'.cur = (S.run lead (acts.map (Prod.mk false))).attrs ∧ Headed s' ∧ s.names.Le s'.names ∧
      (∀ arc, (s'.edgeMap.get arc).isSome = true ↔ (s.edgeMap.get arc).isSome = true ∨ .edge arc ∈ acts) ∧
      ∀ act ∈ acts, Asked a es s'.names act := by
  induction acts generalizing s S with
  | nil =>
    cases done
    exact ⟨held,cur,headed,.refl _,by simp,by simp⟩
  | cons act acts ih =>
    obtain ⟨s₁,first,rest⟩ := Option.bind_eq_some_iff.mp done
    have here := mine act List.mem_cons_self
    obtain ⟨edges,heads⟩ := perform_edges first
    obtain ⟨held',cur',headed',le,edges',asked⟩ := ih (fun act' member => mine act' (List.mem_cons_of_mem act member))
      (held.perform here first) (perform_attrs lead false cur first) (heads headed) rest
    refine ⟨held',cur',headed',(perform_names first).trans le,fun arc => ?_,fun act' member => ?_⟩
    · rw [edges',edges,List.mem_cons,or_assoc,eq_comm (a := act)]
    · rcases List.mem_cons.mp member with rfl | later
      · exact (perform_asked held here first).mono le
      · exact asked act' later

end

section
variable {a : Artist} {es : List Event} {e : Event} {act : Action}

theorem on_of (member : e ∈ es) (on : act.On e) : act.Of es := by
  cases act with
  | node key c => exact ⟨at_mem_processes on,e,member,on⟩
  | fileNode key name => exact ⟨e,member,on⟩
  | edge arc => trivial
  | hide key => exact ⟨at_mem_processes on,e,member,on⟩

theorem static_on (its : act ∈ staticActions e) : act.On e := by
  unfold staticActions at its
  cases kind : e.kind <;> simp only [kind,List.mem_cons,List.not_mem_nil,or_false] at its
  all_goals
    rcases its with rfl | rfl | rfl
    all_goals simp [Action.On,Event.processes,Event.files,kind]

/-- What the animation does for an event that the static drawing does not. -/
theorem animation_cases {acts : List Action} (found : a.animationActions e = some acts) (its : act ∈ acts) :
    act ∈ staticActions e ∨
      (∃ child t, e.child? = some child ∧ a.traceMap.trace? e.host child = some t ∧
        act = .node (pidhostOf child e.host) {exe := some t.initExe, uid := t.initEuid} ∧
        .node (pidhostOf child e.host) {} ∈ staticActions e) ∨
      (∃ key name default, act = .fileNode key name ∧ .fileNode key default ∈ staticActions e) ∨
      act = .hide e.pidhost := by
  unfold Artist.animationActions at found
  unfold staticActions Event.child?
  cases kind : e.kind <;> simp only [kind] at found
  case fork child =>
    obtain ⟨t,trace,rfl⟩ := Option.map_eq_some_iff.mp found
    grind
  case clone child =>
    obtain ⟨t,trace,rfl⟩ := Option.map_eq_some_iff.mp found
    grind
  all_goals
    cases found
    try unfold staticActions at its
    try simp only [kind] at its
    grind

theorem animation_on {acts : List Action} (found : a.animationActions e = some acts) (its : act ∈ acts) : act.On e := by
  rcases animation_cases found its with same | ⟨child,t,_,_,rfl,same⟩ | ⟨key,name,default,rfl,same⟩ | rfl
  · exact static_on same
  · have on := static_on same
    exact on
  · have on := static_on same
    exact on
  · exact List.mem_cons_self

end

/-- The node of a key, where it is shown with such a mark. -/
def NodeHolds (a : Artist) (S : Scene) (key : Str) (node : Option DotNode) : Option Mark → Prop
  | none => ∀ n, node = some n → n.style = .invisible
  | some (.process lit) => '@' ∈ key ∧ ∃ t face style, a.trace key = some t ∧
      node = some ((a.dress t (partitionAt key).1 (S.attrs (partitionAt key)) face style).present lit)
  | some (.file name lit) => ∃ face style, node = some (DotNode.present lit ⟨face,style,1,.white,.circle,.file name⟩)

def EdgeHolds (link : Link) (edge : Option DotEdge) : Option Bool → Prop
  | none => ∀ e, edge = some e → e.style = .invis
  | some lit => edge = some (Artist.drawn link lit)

/-- The canvas shows the scene, and has the given edges. -/
structure Depicts (a : Artist) (arcs : List Arc) (s : Canvas) (S : Scene) : Prop where
  cur : s.cur = S.attrs
  node : ∀ key, NodeHolds a S key (s.nodeMap.get key) (S.nodes key)
  edge : ∀ arc, EdgeHolds arc.link (s.edgeMap.get arc) (S.edges arc)
  quiet : ∀ arc, arc.link = .chown → S.edges arc = none
  headed : Headed s
  keys : ∀ arc, (s.edgeMap.get arc).isSome = true ↔ arc ∈ arcs
  covers : ∀ key edges, s.nodeEdgesMap.get key = some edges → ∀ arc, arc ∈ edges ↔
    leads arcs arc = true ∧ arc.touches key

/-- The actions that the replays perform. -/
def Action.Within (arcs : List Arc) : Action → Prop
  | .node key _ | .hide key => '@' ∈ key
  | .fileNode _ _ => True
  | .edge arc => arc ∈ arcs

section
variable {a : Artist} {arcs : List Arc} {s s' : Canvas} {S : Scene} {lit : Bool}

/-- A node keeps what it shows while other processes change. -/
theorem NodeHolds.congr {S' : Scene} {key : Str} {node : Option DotNode} {mark : Option Mark}
    (holds : NodeHolds a S key node mark)
    (same : '@' ∈ key → S'.attrs (partitionAt key) = S.attrs (partitionAt key)) : NodeHolds a S' key node mark := by
  match mark, holds with
  | none, hidden => exact hidden
  | some (.process lit), ⟨is_key,t,face,style,trace,shown⟩ =>
    refine ⟨is_key,t,face,style,trace,?_⟩
    rw [same is_key]
    exact shown
  | some (.file name lit), shown => exact shown

theorem Depicts.animate_node {key : Str} {c : Change} (held : Depicts a arcs s S) (is_key : '@' ∈ key)
    (done : a.animate lit s (.node key c) = some s') : Depicts a arcs s' (S.act (leads arcs) (lit,.node key c)) := by
  obtain ⟨s₁,got,rfl⟩ := Option.map_eq_some_iff.mp done
  obtain ⟨keys,heads⟩ := perform_edges got
  have cur := perform_attrs (leads arcs) lit held.cur got
  obtain ⟨t,face,style,names,face',names',trace,_,_,rfl⟩ := getNode_eq got
  obtain ⟨nodeMap,made⟩ := Canvas.onNode_eq _ key (DotNode.present lit)
  refine ⟨?_,fun key' => ?_,?_,held.quiet,?_,?_,?_⟩
  · rw [Canvas.present,made]
    exact cur
  · rw [Canvas.present,Canvas.get_onNode,Dict.get_set]
    by_cases same : key = key'
    · subst same
      simp only [if_true,Scene.act,Function.update_self,Option.map_some]
      refine ⟨is_key,t,face',style,trace,?_⟩
      simp only [held.cur,Function.update_self]
    · simp only [if_neg same,Scene.act,Function.update_of_ne (Ne.symm same)]
      refine (held.node key').congr fun is_key' => ?_
      exact Function.update_of_ne (fun equal => same (partitionAt_inj is_key' is_key equal).symm) _ _
  all_goals rw [Canvas.present,made]
  · exact held.edge
  · exact heads held.headed
  · exact held.keys
  · exact held.covers

theorem Depicts.animate_fileNode {key : Str} {name : Option Str} (held : Depicts a arcs s S)
    (done : a.animate lit s (.fileNode key name) = some s') : Depicts a arcs s' (S.act (leads arcs) (lit,.fileNode key name)) := by
  obtain ⟨s₁,got,rfl⟩ := Option.map_eq_some_iff.mp done
  cases got
  obtain ⟨nodeMap,made⟩ := Canvas.onNode_eq (s.getFileNode key name) key (DotNode.present lit)
  refine ⟨?_,fun key' => ?_,?_,held.quiet,?_,?_,?_⟩
  · rw [Canvas.present,made]
    exact held.cur
  · rw [Canvas.present,Canvas.get_onNode]
    simp only [Canvas.getFileNode,Dict.get_set]
    by_cases same : key = key'
    · subst same
      simp only [if_true,Scene.act,Function.update_self,Option.map_some]
      exact ⟨_,_,rfl⟩
    · simp only [if_neg same,Scene.act,Function.update_of_ne (Ne.symm same)]
      exact (held.node key').congr fun _ => rfl
  all_goals rw [Canvas.present,made]
  · exact held.edge
  · exact held.headed
  · exact held.keys
  · exact held.covers

/-- Shown once more, and highlighted or not, an edge looks as it should. -/
theorem present_edge {link : Link} {e : DotEdge} (headed : e.arrowhead = (DotEdge.create.show link).arrowhead)
    (shown : link ≠ .chown) :
    DotEdge.present lit link {e.show link with penwidth := 1, color := .black} = Artist.drawn link lit := by
  obtain ⟨style,arrowhead,penwidth,color⟩ := e
  cases link <;> first | exact absurd rfl shown | (cases headed; cases lit <;> rfl)

theorem present_arrowhead {link : Link} {e : DotEdge} (headed : e.arrowhead = (DotEdge.create.show link).arrowhead) :
    (DotEdge.present lit link {e.show link with penwidth := 1, color := .black}).arrowhead =
      (DotEdge.create.show link).arrowhead := by
  cases link <;> cases lit <;> first | rfl | exact headed

theorem present_chown {e : DotEdge} (hidden : e.style = .invis) :
    (DotEdge.present lit .chown {e.show .chown with penwidth := 1, color := .black}).style = .invis := by
  cases lit <;> exact hidden

theorem Depicts.animate_edge {arc : Arc} (held : Depicts a arcs s S) (listed : arc ∈ arcs)
    (done : a.animate lit s (.edge arc) = some s') : Depicts a arcs s' (S.act (leads arcs) (lit,.edge arc)) := by
  obtain ⟨s₁,got,rfl⟩ := Option.map_eq_some_iff.mp done
  obtain ⟨keys,heads⟩ := perform_edges got
  cases got
  obtain ⟨edgeMap,made⟩ := Canvas.onEdge_eq (s.getEdge arc) arc (DotEdge.present lit arc.link)
  obtain ⟨e,there⟩ := Option.isSome_iff_exists.mp ((held.keys arc).mpr listed)
  have lookup : ∀ arc', ((s.getEdge arc).present lit (.edge arc)).edgeMap.get arc' = if arc = arc' then
      some (DotEdge.present lit arc.link {e.show arc.link with penwidth := 1, color := .black})
      else s.edgeMap.get arc' := by
    intro arc'
    rw [Canvas.present,Canvas.get_onEdge]
    simp only [Canvas.getEdge,Dict.get_set,there]
    split_ifs <;> rfl
  have nodes : (S.act (leads arcs) (lit,.edge arc)).nodes = S.nodes ∧ (S.act (leads arcs) (lit,.edge arc)).attrs = S.attrs := by
    by_cases chown : arc.link = .chown <;> simp [Scene.act,chown]
  refine ⟨?_,fun key => ?_,fun arc' => ?_,fun arc' quiet => ?_,fun arc' e' found => ?_,fun arc' => ?_,?_⟩
  · rw [Canvas.present,made,nodes.2]
    exact held.cur
  · rw [nodes.1,Canvas.present,made]
    exact (held.node key).congr fun _ => by rw [nodes.2]
  · rw [lookup]
    by_cases chown : arc.link = .chown
    · simp only [Scene.act,chown,if_true]
      split_ifs with same
      · subst same
        rw [held.quiet arc chown]
        intro e' found
        cases found
        have before := held.edge arc
        rw [held.quiet arc chown] at before
        exact present_chown (before e there)
      · exact held.edge arc'
    · simp only [Scene.act,chown,if_false]
      split_ifs with same
      · subst same
        rw [Function.update_self]
        exact congrArg some (present_edge (held.headed arc e there) chown)
      · rw [Function.update_of_ne (Ne.symm same)]
        exact held.edge arc'
  · by_cases chown : arc.link = .chown
    · simpa [Scene.act,chown] using held.quiet arc' quiet
    · have other : arc' ≠ arc := by
        rintro rfl
        exact chown quiet
      simpa [Scene.act,chown,Function.update_of_ne other] using held.quiet arc' quiet
  · rw [lookup] at found
    split_ifs at found with same
    · subst same
      cases found
      exact present_arrowhead (held.headed arc e there)
    · exact held.headed arc' e' found
  · rw [lookup]
    split_ifs with same
    · subst same
      simpa using listed
    · exact held.keys arc'
  · rw [Canvas.present,made]
    exact held.covers

theorem Depicts.animate_hide {key : Str} (held : Depicts a arcs s S)
    (done : a.animate lit s (.hide key) = some s') : Depicts a arcs s' (S.act (leads arcs) (lit,.hide key)) := by
  obtain ⟨s₁,got,rfl⟩ := Option.map_eq_some_iff.mp done
  obtain ⟨keys,heads⟩ := perform_edges got
  have cur := perform_attrs (leads arcs) lit held.cur got
  obtain ⟨s₂,node,hidden⟩ := Option.bind_eq_some_iff.mp got
  obtain ⟨t,face,style,names,face',names',_,_,_,rfl⟩ := getNode_eq node
  obtain ⟨edges,found,kept,nodes,edge⟩ := hideNode_eq hidden
  refine ⟨cur,fun key' => ?_,fun arc => ?_,fun arc quiet => ?_,heads held.headed,fun arc => ?_,?_⟩
  · rw [Canvas.present,nodes,Dict.get_set]
    by_cases same : key = key'
    · subst same
      simp only [if_true,Scene.act,Function.update_self,Option.map_some]
      intro n shown
      cases shown
      rfl
    · simp only [if_neg same,Scene.act,Function.update_of_ne (Ne.symm same)]
      exact (held.node key').congr fun _ => rfl
  · rw [Canvas.present,edge]
    by_cases member : arc ∈ edges
    · simp only [Scene.act,(held.covers key edges found arc).mp member,and_self,if_true,if_pos member]
      intro e gone
      obtain ⟨e₀,_,rfl⟩ := Option.map_eq_some_iff.mp gone
      rfl
    · have other : ¬(leads arcs arc = true ∧ arc.touches key) := fun led =>
        member ((held.covers key edges found arc).mpr led)
      simp only [Scene.act,if_neg other,if_neg member]
      exact held.edge arc
  · simp only [Scene.act]
    split_ifs
    · rfl
    · exact held.quiet arc quiet
  · have same := keys arc
    simp only [reduceCtorEq,or_false] at same
    exact same.trans (held.keys arc)
  · rw [Canvas.present,kept]
    exact held.covers

theorem Depicts.animate {act : Action} (held : Depicts a arcs s S) (within : act.Within arcs)
    (done : a.animate lit s act = some s') : Depicts a arcs s' (S.act (leads arcs) (lit,act)) := by
  cases act with
  | node key c => exact held.animate_node within done
  | fileNode key name => exact held.animate_fileNode done
  | edge arc => exact held.animate_edge within done
  | hide key => exact held.animate_hide done

end

def Action.drawn : Action → Option Arc
  | .edge arc => some arc
  | _ => none

/-- The edges of the events in the order in which the static drawing comes to them. -/
def arcsOf (es : List Event) : List Arc := (es.flatMap staticActions).filterMap Action.drawn

theorem onEdge_keys (s : Canvas) (arc : Arc) (f : DotEdge → DotEdge) :
    (s.onEdge arc f).edgeMap.map Prod.fst = s.edgeMap.map Prod.fst := by
  unfold Canvas.onEdge
  cases found : s.edgeMap.get arc with
  | none => rfl
  | some edge =>
    have listed : arc ∈ s.edgeMap.map Prod.fst := Dict.get_isSome.mp (Option.isSome_of_eq_some found)
    exact (Dict.keys_set s.edgeMap arc (f edge)).trans (if_pos listed)

theorem hideEdges_keys (edges : List Arc) (s : Canvas) :
    (edges.foldl (fun s arc => s.onEdge arc DotEdge.hide) s).edgeMap.map Prod.fst = s.edgeMap.map Prod.fst := by
  induction edges generalizing s with
  | nil => rfl
  | cons arc edges ih => rw [List.foldl_cons,ih,onEdge_keys]

/-- An edge that is drawn comes after those that are there. -/
theorem perform_first {a : Artist} {s s' : Canvas} {act : Action} (done : a.perform s act = some s') (p : Arc → Bool) :
    (s'.edgeMap.map Prod.fst).find? p = (s.edgeMap.map Prod.fst ++ act.drawn.toList).find? p := by
  cases act with
  | node key c =>
    obtain ⟨t,face,style,names,face',names',_,_,_,rfl⟩ := getNode_eq done
    simp [Action.drawn]
  | fileNode key name =>
    cases done
    simp [Action.drawn,Canvas.getFileNode]
  | edge arc =>
    cases done
    rw [Canvas.getEdge,Dict.keys_set,Action.drawn,Option.toList_some]
    split_ifs with member
    · rw [List.find?_append]
      cases found : (s.edgeMap.map Prod.fst).find? p with
      | some first => rfl
      | none => simpa using List.find?_eq_none.mp found arc member
    · rfl
  | hide key =>
    obtain ⟨s₁,got,hidden⟩ := Option.bind_eq_some_iff.mp done
    obtain ⟨t,face,style,names,face',names',_,_,_,rfl⟩ := getNode_eq got
    obtain ⟨edges,_,rfl⟩ := Option.map_eq_some_iff.mp hidden
    obtain ⟨nodeMap,made⟩ := Canvas.onNode_eq _ key DotNode.hide
    rw [hideEdges_keys,made]
    simp [Action.drawn]

theorem performs_first {a : Artist} {s s' : Canvas} {acts : List Action} (done : acts.foldlM a.perform s = some s')
    (p : Arc → Bool) :
    (s'.edgeMap.map Prod.fst).find? p = (s.edgeMap.map Prod.fst ++ acts.filterMap Action.drawn).find? p := by
  induction acts generalizing s with
  | nil =>
    cases done
    simp
  | cons act acts ih =>
    obtain ⟨s₁,first,rest⟩ := Option.bind_eq_some_iff.mp done
    rw [ih rest,List.find?_append,perform_first first,← List.find?_append,List.append_assoc]
    cases drawn : act.drawn <;> simp [drawn]

theorem mem_arcsOf {es : List Event} {arc : Arc} : arc ∈ arcsOf es ↔ .edge arc ∈ es.flatMap staticActions := by
  simp only [arcsOf,List.mem_filterMap]
  constructor
  · rintro ⟨act,member,found⟩
    cases act <;> cases found
    exact member
  · exact fun member => ⟨_,member,rfl⟩

section
variable {a : Artist} {es : List Event} {s s' : Canvas} {S : Scene} {lit : Bool}

theorem animation_within {e : Event} {acts : List Action} {act : Action} (member : e ∈ es)
    (found : a.animationActions e = some acts) (its : act ∈ acts) : act.Within (arcsOf es) := by
  have on := animation_on found its
  cases act with
  | node key c => exact at_mem_processes on
  | fileNode key name => trivial
  | edge arc =>
    rcases animation_cases found its with same | ⟨_,_,_,_,no,_⟩ | ⟨_,_,_,no,_⟩ | no
    · exact mem_arcsOf.mpr (List.mem_flatMap.mpr ⟨e,member,same⟩)
    all_goals cases no
  | hide key => exact at_mem_processes on

/-- A canvas in the animation of the events. -/
structure Showing (a : Artist) (es : List Event) (s : Canvas) (S : Scene) : Prop where
  depicts : Depicts a (arcsOf es) s S
  sound : Sound a es s

theorem Showing.animates {acts : List Action} (held : Showing a es s S)
    (mine : ∀ act ∈ acts, act.Of es ∧ act.Within (arcsOf es)) (done : acts.foldlM (a.animate lit) s = some s') :
    Showing a es s' (S.run (leads (arcsOf es)) (acts.map (Prod.mk lit))) ∧ s.names.Le s'.names := by
  induction acts generalizing s S with
  | nil =>
    cases done
    exact ⟨held,.refl _⟩
  | cons act acts ih =>
    obtain ⟨s₁,first,rest⟩ := Option.bind_eq_some_iff.mp done
    obtain ⟨of_es,within⟩ := mine act List.mem_cons_self
    obtain ⟨s₂,performed,made⟩ := Option.map_eq_some_iff.mp first
    have restyled : s₂.Restyled s₁ := made ▸ Canvas.present_restyled lit act
    have showing : Showing a es s₁ (S.act (leads (arcsOf es)) (lit,act)) :=
      ⟨held.depicts.animate within first,(held.sound.perform of_es performed).restyled restyled⟩
    have le : s.names.Le s₁.names := by
      rw [restyled.names]
      exact perform_names performed
    obtain ⟨last,later⟩ := ih showing (fun act' member => mine act' (List.mem_cons_of_mem act member)) rest
    exact ⟨last,le.trans later⟩

theorem Showing.replay {e : Event} (held : Showing a es s S) (member : e ∈ es)
    (done : a.replay lit s e = some s') :
    Showing a es s' (S.run (leads (arcsOf es)) ((a.actions e).map (Prod.mk lit))) ∧ s.names.Le s'.names := by
  obtain ⟨acts,found,ran⟩ := Option.bind_eq_some_iff.mp done
  have same : a.actions e = acts := by rw [Artist.actions,found,Option.getD_some]
  rw [same]
  exact held.animates (fun act its => ⟨on_of member (animation_on found its),animation_within member found its⟩) ran

theorem Showing.replays {first : List Event} (held : Showing a es s S) (members : ∀ e ∈ first, e ∈ es)
    (done : first.foldlM (a.replay lit) s = some s') :
    Showing a es s' (S.run (leads (arcsOf es)) ((first.flatMap a.actions).map (Prod.mk lit))) ∧ s.names.Le s'.names := by
  induction first generalizing s S with
  | nil =>
    cases done
    exact ⟨held,.refl _⟩
  | cons e first ih =>
    obtain ⟨s₁,here,rest⟩ := Option.bind_eq_some_iff.mp done
    obtain ⟨showing,le⟩ := held.replay (members e List.mem_cons_self) here
    obtain ⟨last,later⟩ := ih showing (fun e' member => members e' (List.mem_cons_of_mem e member)) rest
    rw [List.flatMap_cons,List.map_append,Scene.run,List.foldl_append]
    exact ⟨last,le.trans later⟩

theorem Showing.playFrame {i : Nat} (held : Showing a es s S) (done : a.playFrame es i s = some s') :
    Showing a es s' (S.run (leads (arcsOf es)) (a.script es i)) ∧ s.names.Le s'.names := by
  simp only [Artist.playFrame,Option.bind_eq_bind,Option.bind_eq_some_iff] at done
  obtain ⟨e,at_i,s₁,before,last⟩ := done
  obtain ⟨showing,le⟩ := held.replays (fun e' member => List.mem_of_mem_take member) before
  obtain ⟨shown,later⟩ := showing.replay (List.mem_of_getElem? at_i) last
  have script : S.run (leads (arcsOf es)) (a.script es i) =
      (S.run (leads (arcsOf es)) (((es.take i).flatMap a.actions).map (Prod.mk false))).run (leads (arcsOf es))
        ((a.actions e).map (Prod.mk true)) := by
    rw [Artist.script,at_i,Scene.run,List.foldl_append]
    simp [Scene.run]
  rw [script]
  exact ⟨shown,le.trans later⟩

end

theorem Arc.equal_refl (arc : Arc) : arc.equal arc = true := by simp [equal]

theorem Arc.touches_of_equal {arc arc' : Arc} (same : arc.equal arc' = true) (key : Str) :
    arc'.touches key ↔ arc.touches key := by
  obtain ⟨src,trg⟩ := of_decide_eq_true same
  rw [touches,touches,src,trg]

theorem Arc.equal_find {arc arc' : Arc} (same : arc.equal arc' = true) : arc.equal = arc'.equal := by
  obtain ⟨src,trg⟩ := of_decide_eq_true same
  funext other
  rw [equal,equal,src,trg]

/-- The first of some edges is the first of more, where one of its equals is among them. -/
theorem leads_append {arcs : List Arc} {arc : Arc} (member : arc ∈ arcs) (more : List Arc) :
    leads (arcs ++ more) arc = leads arcs arc := by
  have found : (arcs.find? arc.equal).isSome = true := List.find?_isSome.mpr ⟨arc,member,arc.equal_refl⟩
  obtain ⟨first,is_first⟩ := Option.isSome_iff_exists.mp found
  rw [leads,leads,List.find?_append,is_first,Option.some_or]

theorem mem_of_leads {arcs : List Arc} {arc : Arc} (led : leads arcs arc = true) : arc ∈ arcs :=
  List.mem_of_find?_eq_some (of_decide_eq_true led)

/-- What the set of a node's edges holds: the first of each ends. -/
def Firsts (seen : List Arc) (d : Dict Str (List Arc)) : Prop :=
  ∀ key arc, arc ∈ (d.get key).getD [] ↔ leads seen arc = true ∧ arc.touches key

theorem leads_concat (seen : List Arc) (arc arc' : Arc) : leads (seen ++ [arc]) arc' = true ↔
    leads seen arc' = true ∨ arc' = arc ∧ ∀ x ∈ seen, arc.equal x = false := by
  simp only [leads,List.find?_append,decide_eq_true_eq]
  cases found : seen.find? arc'.equal with
  | none =>
    have fresh := List.find?_eq_none.mp found
    simp only [Option.none_or,reduceCtorEq,false_or,List.find?_cons]
    cases same : arc'.equal arc with
    | false =>
      refine iff_of_false (by simp) fun equal => ?_
      rw [equal.1,arc.equal_refl] at same
      cases same
    | true =>
      simp only [Option.some_inj]
      refine ⟨fun equal => ⟨equal.symm,fun x member => ?_⟩,fun equal => equal.1.symm⟩
      rw [equal]
      simpa using fresh x member
  | some first =>
    rw [Option.some_or]
    refine (or_iff_left ?_).symm
    rintro ⟨rfl,fresh⟩
    have no := fresh first (List.mem_of_find?_eq_some found)
    rw [List.find?_some found] at no
    cases no

theorem mem_addEdge {d : Dict Str (List Arc)} {key key' : Str} {arc arc' : Arc} :
    arc' ∈ ((Canvas.addEdge d key arc).get key').getD [] ↔ arc' ∈ (d.get key').getD [] ∨
      arc' = arc ∧ key = key' ∧ ∀ x ∈ (d.get key).getD [], arc.equal x = false := by
  rw [Canvas.addEdge,Dict.get_set]
  by_cases same : key = key'
  · subst same
    by_cases equal : ((d.get key).getD []).any arc.equal = true
    · obtain ⟨x,member,is_equal⟩ := List.any_eq_true.mp equal
      rw [if_pos rfl,if_pos equal,Option.getD_some]
      refine (or_iff_left fun added => ?_).symm
      rw [added.2.2 x member] at is_equal
      cases is_equal
    · have fresh : ∀ x ∈ (d.get key).getD [], arc.equal x = false := by simpa using equal
      rw [if_pos rfl,if_neg equal,Option.getD_some,List.mem_append,List.mem_singleton]
      exact or_congr_right ⟨fun is => ⟨is,rfl,fresh⟩,fun is => is.1⟩
  · simp [same]

/-- An end of an edge has one that is equal just if there was one. -/
theorem Firsts.fresh {seen : List Arc} {d : Dict Str (List Arc)} (firsts : Firsts seen d) {arc : Arc} {key : Str}
    (touch : arc.touches key) : (∀ x ∈ (d.get key).getD [], arc.equal x = false) ↔ ∀ x ∈ seen, arc.equal x = false := by
  constructor
  · intro none x member
    by_contra equal
    have found : (seen.find? arc.equal).isSome = true := List.find?_isSome.mpr ⟨x,member,by simpa using equal⟩
    obtain ⟨first,is_first⟩ := Option.isSome_iff_exists.mp found
    have same := List.find?_some is_first
    have led : leads seen first = true := by
      rw [leads,← Arc.equal_find same]
      exact decide_eq_true is_first
    rw [none first ((firsts key first).mpr ⟨led,(Arc.touches_of_equal same key).mpr touch⟩)] at same
    cases same
  · exact fun none x member => none x (mem_of_leads ((firsts key x).mp member).1)

/-- Both ends of an edge are given it, unless they have one that is equal. -/
theorem Firsts.add {seen : List Arc} {d : Dict Str (List Arc)} (firsts : Firsts seen d) (arc : Arc) :
    Firsts (seen ++ [arc]) (Canvas.addEdge (Canvas.addEdge d arc.src arc) arc.trg arc) := by
  intro key arc'
  rw [mem_addEdge,mem_addEdge,firsts.fresh (.inl rfl),firsts key arc',leads_concat]
  have more : ∀ x, x ∈ (d.get arc.trg).getD [] → x ∈ ((Canvas.addEdge d arc.src arc).get arc.trg).getD [] :=
    fun x member => mem_addEdge.mpr (.inl member)
  constructor
  · rintro ((⟨led,touch⟩ | ⟨rfl,rfl,none⟩) | ⟨rfl,rfl,none⟩)
    · exact ⟨.inl led,touch⟩
    · exact ⟨.inr ⟨rfl,none⟩,.inl rfl⟩
    · exact ⟨.inr ⟨rfl,(firsts.fresh (.inr rfl)).mp fun x member => none x (more x member)⟩,.inr rfl⟩
  · rintro ⟨led | ⟨rfl,none⟩,touch⟩
    · exact .inl (.inl ⟨led,touch⟩)
    · by_cases src : arc'.src = key
      · exact .inl (.inr ⟨rfl,src,none⟩)
      · -- the target is another node, which has not been given the edge
        have trg : arc'.trg = key := touch.resolve_left src
        refine .inr ⟨rfl,trg,fun x member => ?_⟩
        rcases mem_addEdge.mp member with before | ⟨_,loop,_⟩
        · exact (firsts.fresh (.inr rfl)).mpr none x before
        · exact absurd (loop.trans trg) src

/-- The edges that a node is given are the first ones between their ends of those that touch it. -/
theorem firsts_nodeEdges (arcs seen : List Arc) {d : Dict Str (List Arc)} (firsts : Firsts seen d) :
    Firsts (seen ++ arcs) (arcs.foldl (fun d arc => Canvas.addEdge (Canvas.addEdge d arc.src arc) arc.trg arc) d) := by
  induction arcs generalizing seen d with
  | nil => simpa using firsts
  | cons arc arcs ih =>
    have rest := ih (seen ++ [arc]) (firsts.add arc)
    rwa [List.append_assoc,List.singleton_append] at rest

section
variable {a : Artist} {es : List Event} {s : Canvas}

/-- The canvas that the animation starts from. -/
theorem prepared_showing (drawn : a.drawStatic es = some s) :
    Showing a es s.makeAllInvisible.buildNodeEdgesMap (a.finished es) := by
  have mine : ∀ act ∈ es.flatMap staticActions, act.Of es := by
    intro act member
    obtain ⟨e,of_es,its⟩ := List.mem_flatMap.mp member
    exact on_of of_es (static_on its)
  have start : Sound a es ⟨[],[],[],Names.start,a.initial⟩ :=
    ⟨fun _ _ _ => rfl,fun _ _ _ no => (by cases no),fun _ _ _ no => (by cases no),fun _ _ no => (by cases no)⟩
  obtain ⟨sound,cur,headed,_,edges,_⟩ :=
    performs_spec (S := a.blank) everyEdge mine start rfl (fun _ _ no => by cases no) drawn
  have keys : ∀ arc, (s.edgeMap.get arc).isSome = true ↔ arc ∈ arcsOf es := by
    intro arc
    rw [edges,mem_arcsOf]
    simp
  have edge : ∀ arc, s.makeAllInvisible.edgeMap.get arc = (s.edgeMap.get arc).map DotEdge.hide :=
    fun arc => Dict.get_map_snd DotEdge.hide s.edgeMap arc
  refine ⟨⟨cur,fun key n shown => ?_,fun arc e shown => ?_,fun _ _ => rfl,fun arc e shown => ?_,fun arc => ?_,?_⟩,
    sound.restyled Canvas.prepared_restyled⟩
  · obtain ⟨n₀,_,rfl⟩ := Option.map_eq_some_iff.mp ((Dict.get_map_snd DotNode.hide s.nodeMap key).symm.trans shown)
    rfl
  · obtain ⟨e₀,_,rfl⟩ := Option.map_eq_some_iff.mp ((edge arc).symm.trans shown)
    rfl
  · obtain ⟨e₀,there,rfl⟩ := Option.map_eq_some_iff.mp ((edge arc).symm.trans shown)
    exact headed arc e₀ there
  · rw [← keys]
    exact (congrArg (Option.isSome · = true) (edge arc)).trans (by rw [Option.isSome_map]) |>.to_iff
  · intro key listed found arc
    have none : Firsts [] ([] : Dict Str (List Arc)) := fun _ _ => by simp [leads]
    have all := firsts_nodeEdges (s.makeAllInvisible.edgeMap.map Prod.fst) [] none key arc
    have here : s.makeAllInvisible.buildNodeEdgesMap.nodeEdgesMap.get key = some listed := found
    have order : s.makeAllInvisible.edgeMap.map Prod.fst = s.edgeMap.map Prod.fst := by
      rw [Canvas.makeAllInvisible,List.map_map]
      rfl
    have first : leads (s.edgeMap.map Prod.fst) arc = leads (arcsOf es) arc := by
      rw [leads,performs_first drawn]
      rfl
    rw [Canvas.buildNodeEdgesMap] at here
    rwa [here,Option.getD_some,List.nil_append,order,first] at all

/-- What is drawn when frame `i` is written is the scene of the events up to `i`, started with
the processes as the static drawing left them. -/
theorem drawAnimation_showing {i : Nat} (done : a.drawAnimation es i = some s) :
    ∃ s₀, a.drawStatic es = some s₀ ∧ Showing a es s ((a.finished es).run (leads (arcsOf es)) (a.script es i)) ∧ s₀.names.Le s.names := by
  induction i generalizing s with
  | zero =>
    obtain ⟨s₀,drawn,played⟩ := Option.bind_eq_some_iff.mp done
    obtain ⟨showing,le⟩ := (prepared_showing drawn).playFrame played
    exact ⟨s₀,drawn,showing,le⟩
  | succ i ih =>
    obtain ⟨s₁,before,played⟩ := Option.bind_eq_some_iff.mp done
    obtain ⟨s₀,drawn,first,le⟩ := ih before
    obtain ⟨showing,later⟩ := first.playFrame played
    rw [Scene.run_rerun _ fun x member => a.script_succ member] at showing
    exact ⟨s₀,drawn,showing,le.trans later⟩

end

end SelfPropelled.SecStar
