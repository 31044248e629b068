import SelfPropelled.Library.Fallible
import SelfPropelled.SecStar.Figures
import SelfPropelled.SecStar.LookupTable

/-! When a drawing goes through: every process that is got has a trace, and every process that
exits has an edge. And from the traces to the figure: which relations are drawn. -/

namespace SelfPropelled.SecStar
open Library

/-- An executable that cannot run out of letters while it is looked for one. -/
def Named (exe : Str) : Prop := 2 ≤ (Names.strippedExe exe).length

/-- The executables of all traces and events are named. -/
structure Namable (a : Artist) (es : List Event) : Prop where
  initial : ∀ host pid t, a.traceMap.get2 host pid = some t → Named t.initExe
  change : ∀ e ∈ es, ∀ exe, e.change.exe = some exe → Named exe

namespace Names
variable {lower : Char → Str} {n : Names} {exe : Str}

theorem search_isSome {first : Str} {rest : Str} (more : rest ≠ []) : (search lower n exe first rest).isSome = true := by
  induction rest generalizing first with
  | nil => exact absurd rfl more
  | cons c rest ih =>
    cases rest with
    | nil =>
      rw [search]
      split <;> rfl
    | cons c' rest =>
      simp only [search]
      split
      · exact ih (by simp)
      · rfl

theorem getExeInitial_isSome (named : Named exe) : (n.getExeInitial lower exe).isSome = true := by
  unfold getExeInitial
  cases n.exeInitial.get exe with
  | some letter => rfl
  | none =>
    unfold Named at named
    cases left : strippedExe exe with
    | nil => simp [left] at named
    | cons c rest =>
      rw [Option.isSome_map]
      apply search_isSome
      rintro rfl
      simp [left] at named

theorem create_isSome {t : Trace} (named : Named t.initExe) : (n.create lower t).isSome = true := by
  rw [create,Option.isSome_map]
  exact getExeInitial_isSome named

theorem repaint_isSome {c : Change} {f : Face} (named : ∀ exe, c.exe = some exe → Named exe) :
    (n.repaint lower c f).isSome = true := by
  rw [repaint,Option.isSome_map]
  cases exe : c.exe with
  | none => rfl
  | some exe' => exact getExeInitial_isSome (named exe' exe)

end Names

/-- The executable that a call gives a node is named. -/
def Action.Named : Action → Prop
  | .node _ c => ∀ exe, c.exe = some exe → SecStar.Named exe
  | _ => True

/-- A call that does not fail, where some nodes have edges. -/
def Action.Possible (a : Artist) (linked : Str → Prop) : Action → Prop
  | .node key _ => (a.trace key).isSome = true
  | .hide key => (a.trace key).isSome = true ∧ linked key
  | _ => True

section
variable {a : Artist} {es : List Event} {e : Event} {s s' : Canvas} {act : Action} {key : Str}

theorem getNode_isSome {c : Change} (initial : ∀ host pid t, a.traceMap.get2 host pid = some t → Named t.initExe)
    (named : ∀ exe, c.exe = some exe → Named exe) : (a.getNode key c s).isSome = true ↔ (a.trace key).isSome = true := by
  unfold Artist.getNode
  cases trace : a.trace key with
  | none => simp
  | some t =>
    have base : (a.base t key s).isSome = true := by
      unfold Artist.base
      cases s.nodeMap.get key with
      | some node => rfl
      | none =>
        rw [Option.isSome_map]
        exact Names.create_isSome (initial _ _ t trace)
    obtain ⟨⟨face,style,names⟩,made⟩ := Option.isSome_iff_exists.mp base
    have repaints : (names.repaint a.lower c face).isSome = true := Names.repaint_isSome named
    obtain ⟨r,painted⟩ := Option.isSome_iff_exists.mp repaints
    simp [made,painted]

theorem perform_isSome (initial : ∀ host pid t, a.traceMap.get2 host pid = some t → Named t.initExe) (named : act.Named) :
    (a.perform s act).isSome = true ↔ act.Possible a fun key => (s.nodeEdgesMap.get key).isSome = true := by
  cases act with
  | node key c => exact getNode_isSome initial named
  | fileNode key name => simp [Artist.perform,Action.Possible]
  | edge arc => simp [Artist.perform,Action.Possible]
  | hide key =>
    have got : (a.getNode key {} s).isSome = true ↔ (a.trace key).isSome = true :=
      getNode_isSome initial fun _ no => by cases no
    rw [Action.Possible,← got,Artist.perform]
    cases here : a.getNode key {} s with
    | none => simp
    | some s₁ =>
      obtain ⟨_,_,_,_,_,_,_,_,_,rfl⟩ := getNode_eq here
      simp [Canvas.hideNode]

/-- No call changes which edges a node is given. -/
theorem perform_keeps (done : a.perform s act = some s') : s'.nodeEdgesMap = s.nodeEdgesMap := by
  cases act with
  | node key c =>
    obtain ⟨_,_,_,_,_,_,_,_,_,rfl⟩ := getNode_eq done
    rfl
  | fileNode key name =>
    cases done
    rfl
  | edge arc =>
    cases done
    rfl
  | hide key =>
    obtain ⟨s₁,got,hidden⟩ := Option.bind_eq_some_iff.mp done
    obtain ⟨_,_,_,_,_,_,_,_,_,rfl⟩ := getNode_eq got
    obtain ⟨_,_,kept,_⟩ := hideNode_eq hidden
    exact kept

theorem present_keeps (lit : Bool) (act : Action) : (s.present lit act).nodeEdgesMap = s.nodeEdgesMap := by
  cases act with
  | node key c | fileNode key name =>
    obtain ⟨nodeMap,made⟩ := s.onNode_eq key (DotNode.present lit)
    rw [Canvas.present,made]
  | edge arc =>
    obtain ⟨edgeMap,made⟩ := s.onEdge_eq arc (DotEdge.present lit arc.link)
    rw [Canvas.present,made]
  | hide key => rfl

/-- The processes that an event's branch of the animation gets. -/
def Event.gets (e : Event) : List Str :=
  match e.kind with
  | .accept .. | .recv .. => []
  | _ => e.processes

theorem static_named (change : ∀ exe, e.change.exe = some exe → Named exe) : ∀ act ∈ staticActions e, act.Named := by
  unfold Event.change at change
  unfold staticActions
  cases kind : e.kind with
  | exec exe =>
    rw [kind] at change
    simpa [Action.Named] using change
  | _ => simp [Action.Named]

theorem animation_named (namable : Namable a es) (member : e ∈ es) {acts : List Action}
    (found : a.animationActions e = some acts) (its : act ∈ acts) : act.Named := by
  have static := static_named (namable.change e member)
  rcases animation_cases found its with same | ⟨child,t,_,trace,rfl,_⟩ | ⟨key,name,default,rfl,_⟩ | rfl
  · exact static act same
  · intro exe given
    cases given
    obtain ⟨host,_,rest⟩ := Option.bind_eq_some_iff.mp trace
    obtain ⟨pid,_,there⟩ := Option.bind_eq_some_iff.mp rest
    exact namable.initial host pid t there
  · trivial
  · trivial

theorem static_possible (e : Event) (linked : Str → Prop) : (∀ act ∈ staticActions e, act.Possible a linked) ↔
    (e.gone = none → ∀ key ∈ e.gets, (a.trace key).isSome = true) := by
  unfold staticActions Event.gone Event.gets Event.processes
  cases e.kind <;> simp [Action.Possible]

theorem animation_possible {acts : List Action} (found : a.animationActions e = some acts) (linked : Str → Prop) :
    (∀ act ∈ acts, act.Possible a linked) ↔
      (∀ key ∈ e.gets, (a.trace key).isSome = true) ∧ ∀ key, e.gone = some key → linked key := by
  unfold Artist.animationActions staticActions at found
  unfold Event.gone Event.gets Event.processes
  cases kind : e.kind with
  | fork child | clone child =>
    rw [kind] at found
    obtain ⟨t,_,rfl⟩ := Option.map_eq_some_iff.mp found
    simp [Action.Possible]
  | _ =>
    simp only [kind,Option.some.injEq] at found
    cases found
    simp [Action.Possible]

theorem animationActions_isSome : (a.animationActions e).isSome = true ↔
    ∀ child, e.child? = some child → (a.traceMap.trace? e.host child).isSome = true := by
  unfold Artist.animationActions Event.child?
  cases e.kind <;> simp [Artist.childActions]

theorem drawStatic_isSome (namable : Namable a es) : (a.drawStatic es).isSome = true ↔
    ∀ e ∈ es, e.gone = none → ∀ key ∈ e.gets, (a.trace key).isSome = true := by
  have plain : ∀ act ∈ es.flatMap staticActions, ∀ s : Canvas, True →
      ((a.perform s act).isSome = true ↔ act.Possible a fun _ => True) := by
    intro act member s _
    obtain ⟨e,of_es,its⟩ := List.mem_flatMap.mp member
    rw [perform_isSome namable.initial (static_named (namable.change e of_es) act its)]
    cases act with
    | hide key => exact absurd its ((static_branch e).calls.1 key)
    | _ => exact Iff.rfl
  rw [Artist.drawStatic,foldlM_isSome (fun _ _ _ _ _ => trivial) plain trivial]
  constructor
  · intro all e of_es
    exact (static_possible e _).mp fun act its => all act (List.mem_flatMap.mpr ⟨e,of_es,its⟩)
  · intro traced act member
    obtain ⟨e,of_es,its⟩ := List.mem_flatMap.mp member
    exact (static_possible e _).mpr (traced e of_es) act its

/-- What the replay of an event needs, where nodes were given these edges. -/
structure Replayable (a : Artist) (edges : Dict Str (List Arc)) (e : Event) : Prop where
  child : ∀ child, e.child? = some child → (a.traceMap.trace? e.host child).isSome = true
  traced : ∀ key ∈ e.gets, (a.trace key).isSome = true
  linked : ∀ key, e.gone = some key → (edges.get key).isSome = true

theorem animate_keeps {lit : Bool} (done : a.animate lit s act = some s') : s'.nodeEdgesMap = s.nodeEdgesMap := by
  obtain ⟨s₁,performed,rfl⟩ := Option.map_eq_some_iff.mp done
  rw [present_keeps,perform_keeps performed]

theorem replay_keeps {lit : Bool} (done : a.replay lit s e = some s') : s'.nodeEdgesMap = s.nodeEdgesMap := by
  obtain ⟨acts,_,ran⟩ := Option.bind_eq_some_iff.mp done
  exact kept_foldlM (K := fun t => t.nodeEdgesMap = s.nodeEdgesMap) (fun _ _ _ same done => (animate_keeps done).trans same) rfl ran

theorem replay_isSome {lit : Bool} (namable : Namable a es) (member : e ∈ es) :
    (a.replay lit s e).isSome = true ↔ Replayable a s.nodeEdgesMap e := by
  unfold Artist.replay
  have known := animationActions_isSome (a := a) (e := e)
  cases found : a.animationActions e with
  | none =>
    rw [found] at known
    exact iff_of_false (by simp) fun can => by simpa using known.mpr can.child
  | some acts =>
    have each : ∀ act ∈ acts, ∀ t : Canvas, t.nodeEdgesMap = s.nodeEdgesMap → ((a.animate lit t act).isSome = true ↔
        act.Possible a fun key => (s.nodeEdgesMap.get key).isSome = true) := by
      intro act its t same
      rw [Artist.animate,Option.isSome_map,perform_isSome namable.initial (animation_named namable member found its),same]
    rw [Option.bind_some,foldlM_isSome (fun _ _ _ same done => (animate_keeps done).trans same) each rfl,
      animation_possible found]
    rw [found] at known
    exact ⟨fun all => ⟨known.mp rfl,all.1,all.2⟩,fun can => ⟨can.traced,can.linked⟩⟩

theorem playFrame_keeps {i : Nat} (done : a.playFrame es i s = some s') : s'.nodeEdgesMap = s.nodeEdgesMap := by
  simp only [Artist.playFrame,Option.bind_eq_bind,Option.bind_eq_some_iff] at done
  obtain ⟨e,_,s₁,before,last⟩ := done
  refine (replay_keeps last).trans ?_
  exact kept_foldlM (K := fun t => t.nodeEdgesMap = s.nodeEdgesMap) (fun _ _ _ same done => (replay_keeps done).trans same) rfl before

theorem playFrame_isSome {i : Nat} (namable : Namable a es) : (a.playFrame es i s).isSome = true ↔
    i < es.length ∧ ∀ e ∈ es.take (i + 1), Replayable a s.nodeEdgesMap e := by
  unfold Artist.playFrame
  cases at_i : es[i]? with
  | none =>
    have out := List.getElem?_eq_none_iff.mp at_i
    simp only [Option.bind_eq_bind,Option.bind_none]
    exact iff_of_false (by simp) fun can => absurd can.1 (by omega)
  | some e =>
    have inside := (List.getElem?_eq_some_iff.mp at_i).1
    have each : ∀ e' ∈ es.take i, ∀ t : Canvas, t.nodeEdgesMap = s.nodeEdgesMap →
        ((a.replay false t e').isSome = true ↔ Replayable a s.nodeEdgesMap e') := by
      intro e' member t same
      rw [replay_isSome namable (List.mem_of_mem_take member),same]
    have first := foldlM_isSome (s := s) (fun _ _ _ same done => (replay_keeps done).trans same) each rfl
    rw [List.take_add_one,at_i,Option.toList_some,List.forall_mem_append,List.forall_mem_singleton,← first]
    simp only [Option.bind_eq_bind,Option.bind_some,inside,true_and]
    cases before : (es.take i).foldlM (a.replay false) s with
    | none => simp
    | some s₁ =>
      have same : s₁.nodeEdgesMap = s.nodeEdgesMap :=
        kept_foldlM (K := fun t => t.nodeEdgesMap = s.nodeEdgesMap) (fun _ _ _ same done => (replay_keeps done).trans same) rfl before
      rw [Option.bind_some,replay_isSome namable (List.mem_of_getElem? at_i),same]
      simp

theorem drawAnimation_keeps {i : Nat} {s₀ : Canvas} (drawn : a.drawStatic es = some s₀)
    (done : a.drawAnimation es i = some s) : s.nodeEdgesMap = s₀.makeAllInvisible.buildNodeEdgesMap.nodeEdgesMap := by
  induction i generalizing s with
  | zero =>
    obtain ⟨s₁,first,played⟩ := Option.bind_eq_some_iff.mp done
    cases drawn.symm.trans first
    exact playFrame_keeps played
  | succ i ih =>
    obtain ⟨s₁,before,played⟩ := Option.bind_eq_some_iff.mp done
    exact (playFrame_keeps played).trans (ih before)

theorem drawAnimation_isSome {i : Nat} {s₀ : Canvas} (namable : Namable a es) (drawn : a.drawStatic es = some s₀) :
    (a.drawAnimation es i).isSome = true ↔ i < es.length ∧
      ∀ e ∈ es.take (i + 1), Replayable a s₀.makeAllInvisible.buildNodeEdgesMap.nodeEdgesMap e := by
  induction i with
  | zero =>
    rw [Artist.drawAnimation,drawn,Option.bind_some]
    exact playFrame_isSome namable
  | succ i ih =>
    rw [Artist.drawAnimation]
    cases before : a.drawAnimation es i with
    | none =>
      rw [before] at ih
      refine iff_of_false (by simp) fun can => ?_
      have earlier := ih.mpr ⟨by omega,fun e member => can.2 e (List.take_subset_take_left es (Nat.le_succ _) member)⟩
      cases earlier
    | some s₁ =>
      rw [Option.bind_some,playFrame_isSome namable,drawAnimation_keeps drawn before]

theorem addEdge_isSome (d : Dict Str (List Arc)) (key key' : Str) (arc : Arc) :
    ((Canvas.addEdge d key arc).get key').isSome = true ↔ (d.get key').isSome = true ∨ key = key' := by
  rw [Canvas.addEdge,Dict.get_set]
  by_cases same : key = key' <;> simp [same]

theorem nodeEdges_isSome (arcs : List Arc) (d : Dict Str (List Arc)) (key : Str) :
    ((arcs.foldl (fun d arc => Canvas.addEdge (Canvas.addEdge d arc.src arc) arc.trg arc) d).get key).isSome = true ↔
      (d.get key).isSome = true ∨ ∃ arc ∈ arcs, arc.touches key := by
  induction arcs generalizing d with
  | nil => simp
  | cons arc arcs ih =>
    rw [List.foldl_cons,ih,addEdge_isSome,addEdge_isSome,or_assoc,or_assoc]
    simp only [List.mem_cons,exists_eq_or_imp,Arc.touches,or_assoc]

/-- The nodes with edges are the ends of what the events draw. -/
theorem linked_iff {s₀ : Canvas} (drawn : a.drawStatic es = some s₀) (key : Str) :
    (s₀.makeAllInvisible.buildNodeEdgesMap.nodeEdgesMap.get key).isSome = true ↔
      ∃ e ∈ es, ∃ arc, e.arc = some arc ∧ arc.touches key := by
  obtain ⟨_,_,_,_,edges⟩ := static_spec drawn
  have keys : ∀ arc, arc ∈ s₀.makeAllInvisible.edgeMap.map Prod.fst ↔ ∃ e ∈ es, e.arc = some arc := by
    intro arc
    rw [← edges,Dict.get_isSome,Canvas.makeAllInvisible,List.map_map]
    rfl
  rw [Canvas.buildNodeEdgesMap,nodeEdges_isSome]
  constructor
  · rintro (no | ⟨arc,member,touch⟩)
    · cases no
    · obtain ⟨e,of_es,its⟩ := (keys arc).mp member
      exact ⟨e,of_es,arc,its,touch⟩
  · rintro ⟨e,of_es,arc,its,touch⟩
    exact .inr ⟨arc,(keys arc).mpr ⟨e,of_es,its⟩,touch⟩

end

/-- Where no executable can run out of letters, a frame is written just when the processes of all
events have traces, and those of the events up to it that exit have an edge, drawn at any time. -/
theorem frame_written_iff (a : Artist) (es : List Event) (i : Nat) (namable : Namable a es) :
    (a.frame es i).isSome = true ↔ i < es.length ∧
      (∀ e ∈ es, e.gone = none → ∀ key ∈ e.gets, (a.trace key).isSome = true) ∧
      ∀ e ∈ es.take (i + 1), (∀ child, e.child? = some child → (a.traceMap.trace? e.host child).isSome = true) ∧
        ∀ key, e.gone = some key → (a.trace key).isSome = true ∧ ∃ e' ∈ es, ∃ arc, e'.arc = some arc ∧ arc.touches key := by
  rw [Artist.frame,Option.isSome_map]
  have gone_gets : ∀ (e : Event) key, e.gone = some key → e.gets = [key] := by
    intro e key gone
    unfold Event.gone at gone
    unfold Event.gets Event.processes
    cases kind : e.kind <;> simp only [kind,reduceCtorEq,Option.some.injEq] at gone ⊢
    rw [gone]
  have static := drawStatic_isSome namable
  cases drawn : a.drawStatic es with
  | none =>
    rw [drawn] at static
    have stuck : a.drawAnimation es i = none := by
      induction i with
      | zero => rw [Artist.drawAnimation,drawn,Option.bind_none]
      | succ i ih => rw [Artist.drawAnimation,ih,Option.bind_none]
    rw [stuck]
    exact iff_of_false (by simp) fun can => by simpa using static.mpr can.2.1
  | some s₀ =>
    rw [drawn] at static
    have traced := static.mp rfl
    rw [drawAnimation_isSome namable drawn]
    refine and_congr_right fun _ => ?_
    constructor
    · intro can
      refine ⟨traced,fun e member => ⟨(can e member).child,fun key gone => ⟨?_,?_⟩⟩⟩
      · exact (can e member).traced key (by rw [gone_gets e key gone]; exact List.mem_singleton_self key)
      · exact (linked_iff drawn key).mp ((can e member).linked key gone)
    · rintro ⟨_,can⟩ e member
      refine ⟨(can e member).1,fun key its => ?_,fun key gone => (linked_iff drawn key).mpr ((can e member).2 key gone).2⟩
      cases gone : e.gone with
      | none => exact traced e (List.mem_of_mem_take member) gone key its
      | some key' =>
        rw [gone_gets e key' gone,List.mem_singleton] at its
        rw [its]
        exact ((can e member).2 key' gone).1

/-- A process that exits without ever having had an edge stops the drawing. -/
theorem frame_written_iff_alone :
    (oneShell.frame [rooted] 0).isSome = true ∧ ¬(oneShell.frame [rooted,shellEvent (.exit none)] 1).isSome = true := by
  have initial : ∀ host pid t, oneShell.traceMap.get2 host pid = some t → Named t.initExe := by
    intro host pid t found
    obtain ⟨row,there,got⟩ := Option.bind_eq_some_iff.mp found
    have row_eq := Dict.get_mem there
    obtain ⟨_,rfl⟩ := Prod.mk.inj (List.mem_singleton.mp row_eq)
    obtain ⟨_,rfl⟩ := Prod.mk.inj (List.mem_singleton.mp (Dict.get_mem got))
    exact (by decide : 2 ≤ (Names.strippedExe shell.initExe).length)
  have change : ∀ e ∈ [rooted,shellEvent (.exit none)], e.change.exe = none := by decide
  have namable : Namable oneShell [rooted,shellEvent (.exit none)] :=
    ⟨initial,fun e member exe given => by rw [change e member] at given; cases given⟩
  refine ⟨by decide,fun written => ?_⟩
  obtain ⟨_,_,can⟩ := (frame_written_iff oneShell _ 1 namable).mp written
  obtain ⟨_,e,member,arc,drawn,_⟩ := (can (shellEvent (.exit none)) (by decide)).2 "7@h".toList rfl
  have none : ∀ e ∈ [rooted,shellEvent (.exit none)], e.arc = none := by decide
  rw [none e member] at drawn
  cases drawn

/-! From the traces to the static figure. -/

section
variable {m : TraceMap} {e e' : Event} {arc : Arc}

theorem arc_listed (drawn : e.arc = some arc) : e.kind.listed = true ∧ (arc.link ≠ .chown → e.kind.relates = true) := by
  unfold Event.arc at drawn
  cases kind : e.kind <;> simp only [kind,reduceCtorEq,Option.some.injEq] at drawn <;> subst drawn
  all_goals simp [Kind.listed,Kind.relates]

theorem resolve_own (made : resolve m e = some e') : e'.host = e.host ∧ e'.pid = e.pid := by
  unfold resolve at made
  split at made
  · obtain ⟨pid,_,rfl⟩ := Option.map_eq_some_iff.mp made
    exact ⟨rfl,rfl⟩
  · cases made
    exact ⟨rfl,rfl⟩

theorem mem_visits {host pid : Str} {t : Trace} {o : Option Event} (there : m.get2 host pid = some t) (its : o ∈ t.eventList) :
    (host,pid,o) ∈ visits m := by
  obtain ⟨row,found,inside⟩ := Option.bind_eq_some_iff.mp there
  refine List.mem_flatMap.mpr ⟨(host,row),Dict.get_mem found,List.mem_flatMap.mpr ⟨(pid,t),Dict.get_mem inside,?_⟩⟩
  exact List.mem_map.mpr ⟨o,its,rfl⟩

end

/-- Every relation between processes that a trace records is drawn in the static figure, a
connection to the process that listens to the port, and no others are; that a file was given
to another owner is drawn for the related processes only. -/
theorem traces_drawn (traces : List Trace) (own : ∀ t ∈ traces, t.Own) (d : DedupDict) (lower : Char → Str) (s : Canvas)
    (drawn : (Artist.mk (lookupTable traces) d lower).drawStatic (buildEventList (lookupTable traces)) = some s) (arc : Arc) :
    (s.picture.edge arc).isSome = true ↔ ∃ host pid t e e', (lookupTable traces).get2 host pid = some t ∧
      t.hostname = some host ∧ t.pid = some pid ∧ some e ∈ t.eventList ∧ resolve (lookupTable traces) e = some e' ∧
      e'.arc = some arc ∧ (arc.link = .chown → Related (lookupTable traces) (host,pid)) := by
  have filed := filed_lookupTable traces
  obtain ⟨_,held,_,_,edges⟩ := static_spec drawn
  have visible : (s.picture.edge arc).isSome = (s.edgeMap.get arc).isSome := by
    cases found : s.edgeMap.get arc with
    | none => simp [Canvas.picture,found]
    | some edge => simp [Canvas.picture,found,held.visible arc edge found]
  rw [visible,edges]
  constructor
  · rintro ⟨e',listed,its⟩
    obtain ⟨⟨x,visited,made⟩,_,host,pid,is_host,is_pid,related⟩ := mem_buildEventList.mp listed
    obtain ⟨t,known,there,recorded,_,_⟩ := filed.visit visited
    obtain ⟨e,is_e,resolved⟩ := Option.bind_eq_some_iff.mp made
    obtain ⟨same_host,same_pid⟩ := resolve_own resolved
    rw [is_e] at recorded
    obtain ⟨t_host,t_pid⟩ := own t known e recorded
    have hostname : t.hostname = some host := t_host.symm.trans (same_host.symm.trans is_host)
    have its_pid : t.pid = some pid := t_pid.symm.trans (same_pid.symm.trans is_pid)
    obtain ⟨t',_,got,_,is_x,is_y⟩ := filed.visit visited
    cases there.symm.trans got
    rw [hostname,format] at is_x
    rw [its_pid,format] at is_y
    rw [is_x,is_y] at there
    exact ⟨host,pid,t,e,e',there,hostname,its_pid,recorded,resolved,its,fun _ => related⟩
  · rintro ⟨host,pid,t,e,e',there,hostname,its_pid,recorded,resolved,its,chown⟩
    have visited := mem_visits there recorded
    obtain ⟨t',known,got,_⟩ := filed.visit visited
    cases there.symm.trans got
    obtain ⟨same_host,same_pid⟩ := resolve_own resolved
    obtain ⟨t_host,t_pid⟩ := own t known e recorded
    obtain ⟨listed,relates⟩ := arc_listed its
    have made : (host,pid,some e).2.2.bind (resolve (lookupTable traces)) = some e' := resolved
    refine ⟨e',mem_buildEventList.mpr ⟨⟨_,visited,made⟩,listed,host,pid,?_,?_,?_⟩,its⟩
    · rw [same_host,t_host,hostname]
    · rw [same_pid,t_pid,its_pid]
    · by_cases link : arc.link = .chown
      · exact chown link
      · exact Related.own visited made (relates link)

theorem traces_drawn_forking :
    (((Artist.mk (lookupTable [forking,forked]) [] fun c => [c]).drawStatic
      (buildEventList (lookupTable [forking,forked]))).map fun s =>
        (s.picture.edge ⟨"7@a".toList,"8@a".toList,.fork⟩).isSome) = some true := by
  have listed : buildEventList (lookupTable [forking,forked]) =
      [⟨"1".toList,some "a".toList,some "7".toList,.fork (some "8".toList)⟩] := by
    have gathered : ((visits (lookupTable [forking,forked])).foldl (gather (lookupTable [forking,forked])) ([],[])).1.filter
        (related ((visits (lookupTable [forking,forked])).foldl (gather (lookupTable [forking,forked])) ([],[])).2) =
        [⟨"1".toList,some "a".toList,some "7".toList,.fork (some "8".toList)⟩] := by decide
    rw [buildEventList,gathered,List.mergeSort_singleton]
  have can : ((Artist.mk (lookupTable [forking,forked]) [] fun c => [c]).drawStatic
      (buildEventList (lookupTable [forking,forked]))).isSome = true := by
    rw [listed]
    decide
  obtain ⟨s,drawn⟩ := Option.isSome_iff_exists.mp can
  rw [drawn,Option.map_some,Option.some_inj]
  apply (traces_drawn [forking,forked] own_forking [] (fun c => [c]) s drawn ⟨"7@a".toList,"8@a".toList,.fork⟩).mpr
  exact ⟨"a".toList,"7".toList,forking,_,_,by decide,rfl,rfl,List.mem_cons_self,rfl,rfl,fun no => by cases no⟩

end SelfPropelled.SecStar
