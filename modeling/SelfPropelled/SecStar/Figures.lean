import SelfPropelled.Library.Lifetime
import SelfPropelled.SecStar.Animation

/-! What the figures show: a frame has the nodes and edges that its events drew and that no exit
took away since; the static figure has those of all events, each process as they leave it. -/

namespace SelfPropelled.SecStar
open Library

namespace Event

/-- The nodes that the branch of an event shows. -/
def shown (e : Event) : List Str :=
  match e.kind with
  | .exit _ | .accept .. | .recv .. => []
  | _ => e.processes ++ e.files

def arc (e : Event) : Option Arc :=
  match e.kind with
  | .connect host _ pid => some ⟨e.pidhost,pidhostOf (some pid) host,.connect⟩
  | .send host pid => some ⟨e.pidhost,pidhostOf pid host,.send⟩
  | .fork child => some ⟨e.pidhost,pidhostOf child e.host,.fork⟩
  | .clone child => some ⟨e.pidhost,pidhostOf child e.host,.clone⟩
  | .open file .. => some ⟨e.pidhost,pidhostOf file e.host,.open⟩
  | .chown file .. => some ⟨e.pidhost,pidhostOf file e.host,.chown⟩
  | _ => none

/-- The process that an event ends. -/
def gone (e : Event) : Option Str :=
  match e.kind with
  | .exit _ => some e.pidhost
  | _ => none

/-- What an event makes of its own process. -/
def change (e : Event) : Change :=
  match e.kind with
  | .exec exe .. => {exe := some exe}
  | .seteuid uid => {uid := uid}
  | .chdir directory => {workingDir := directory}
  | _ => {}

def changeOf (key : Str) (e : Event) : Change := if e.pidhost = key then e.change else {}

theorem arc_shown {e : Event} {arc : Arc} (drawn : e.arc = some arc) : arc.src ∈ e.shown ∧ arc.trg ∈ e.shown := by
  unfold Event.arc at drawn
  cases kind : e.kind <;> simp only [kind,reduceCtorEq,Option.some.injEq] at drawn
  all_goals
    subst drawn
    simp [shown,processes,files,kind]

end Event

/-- What the events that a process makes leave of it: the last executable, user and working
directory that they give, or else those its trace begins with. -/
def Trace.after (t : Trace) (key : Str) (es : List Event) : Attrs :=
  ⟨((es.filterMap fun e => (e.changeOf key).exe).getLast?).getD t.initExe,
    ((es.filterMap fun e => (e.changeOf key).uid).getLast?).or t.initEuid,
    ((es.filterMap fun e => (e.changeOf key).workingDir).getLast?).or t.initWorkingDir⟩

def Mark.lit : Mark → Bool
  | .process lit => lit
  | .file _ lit => lit

/-- The calls of an event's branch, with the nodes they show, the edge they draw and the process
they hide. -/
inductive Branch : List Action → List Str → Option Arc → Option Str → Prop
  | nothing : Branch [] [] none none
  | hides (key : Str) : Branch [.hide key] [] none (some key)
  | alone (key : Str) (c : Change) : Branch [.node key c] [key] none none
  | reaches (arc : Arc) (c c' : Change) :
      Branch [.node arc.src c,.node arc.trg c',.edge arc] [arc.src,arc.trg] (some arc) none
  | opens (arc : Arc) (c : Change) (name : Option Str) :
      Branch [.node arc.src c,.fileNode arc.trg name,.edge arc] [arc.src,arc.trg] (some arc) none

section
variable {a : Artist} {es : List Event} {e : Event} {S : Scene} {s : Canvas} {lit : Bool} {lead : Arc → Bool}
variable {acts : List Action} {shown : List Str} {drawn : Option Arc} {gone : Option Str}

theorem static_branch (e : Event) : Branch (staticActions e) e.shown e.arc none := by
  unfold staticActions Event.shown Event.arc Event.processes Event.files
  cases e.kind with
  | exit | accept | recv => exact .nothing
  | exec exe => exact .alone e.pidhost {exe := some exe}
  | seteuid uid => exact .alone e.pidhost {uid := uid}
  | chdir directory => exact .alone e.pidhost {workingDir := directory}
  | chroot => exact .alone e.pidhost {}
  | «open» | chown => exact .opens ⟨_,_,_⟩ {} _
  | _ => exact .reaches ⟨_,_,_⟩ {} {}

theorem animation_branch (found : a.animationActions e = some acts) : Branch acts e.shown e.arc e.gone := by
  unfold Artist.animationActions staticActions at found
  unfold Event.shown Event.arc Event.gone Event.processes Event.files
  cases kind : e.kind with
  | fork child | clone child =>
    rw [kind] at found
    obtain ⟨t,_,rfl⟩ := Option.map_eq_some_iff.mp found
    exact .reaches ⟨_,_,_⟩ {} _
  | exit =>
    rw [kind] at found
    cases found
    exact .hides e.pidhost
  | «open» | chown =>
    rw [kind] at found
    cases found
    exact .opens ⟨_,_,_⟩ {} _
  | connect | send =>
    simp only [kind,Option.some.injEq] at found
    cases found
    exact .reaches ⟨_,_,_⟩ {} {}
  | accept | recv =>
    simp only [kind,Option.some.injEq] at found
    cases found
    exact .nothing
  | _ =>
    simp only [kind,Option.some.injEq] at found
    cases found
    exact .alone e.pidhost _

/-- What an event does to the nodes in view. -/
theorem Branch.nodes (branch : Branch acts shown drawn gone) (key : Str) :
    ((S.run lead (acts.map (Prod.mk lit))).nodes key).map Mark.lit =
      if key ∈ shown then some lit else if gone = some key then none else (S.nodes key).map Mark.lit := by
  have ran : (S.run lead (acts.map (Prod.mk lit))).nodes key =
      (lastWrite (Scene.nodeEffect key) (acts.map (Prod.mk lit))).getD (S.nodes key) :=
    (Scene.nodeCell lead key).read_run S _
  rw [ran]
  cases branch with
  | nothing => simp [lastWrite]
  | hides key' =>
    by_cases here : key' = key <;> simp [lastWrite,Scene.nodeEffect,here]
  | alone key' c =>
    by_cases here : key' = key
    · simp [lastWrite,Scene.nodeEffect,here,Mark.lit]
    · simp [lastWrite,Scene.nodeEffect,here,Ne.symm here]
  | _ arc =>
    by_cases src : arc.src = key
    · by_cases trg : arc.trg = key <;> simp [lastWrite,Scene.nodeEffect,src,trg,Mark.lit]
    · by_cases trg : arc.trg = key
      · simp [lastWrite,Scene.nodeEffect,src,trg,Mark.lit]
      · simp [lastWrite,Scene.nodeEffect,src,trg,Ne.symm src,Ne.symm trg]

/-- What an event does to the edges in view. -/
theorem Branch.edges (branch : Branch acts shown drawn gone) (arc : Arc) (seen : arc.link ≠ .chown) :
    (S.run lead (acts.map (Prod.mk lit))).edges arc =
      if drawn = some arc then some lit
      else if gone.any (fun key => lead arc && arc.touches key) then none else S.edges arc := by
  have ran : (S.run lead (acts.map (Prod.mk lit))).edges arc =
      (lastWrite (Scene.edgeEffect lead arc) (acts.map (Prod.mk lit))).getD (S.edges arc) :=
    (Scene.edgeCell lead arc).read_run S _
  rw [ran]
  cases branch with
  | nothing => simp [lastWrite]
  | hides key =>
    by_cases touch : lead arc = true ∧ arc.touches key <;> simp [lastWrite,Scene.edgeEffect,touch]
  | alone key c => simp [lastWrite,Scene.edgeEffect]
  | _ arc' =>
    by_cases here : arc' = arc
    · subst here
      simp [lastWrite,Scene.edgeEffect,seen]
    · simp [lastWrite,Scene.edgeEffect,here]

/-- One event of a replay. -/
def Artist.stage (a : Artist) (lead : Arc → Bool) (lit : Bool) (S : Scene) (e : Event) : Scene :=
  S.run lead ((a.actions e).map (Prod.mk lit))

theorem run_stages (S : Scene) (first : List Event) :
    S.run lead ((first.flatMap a.actions).map (Prod.mk lit)) = first.foldl (a.stage lead lit) S := by
  induction first generalizing S with
  | nil => rfl
  | cons e first ih =>
    rw [List.flatMap_cons,List.map_append,Scene.run,List.foldl_append]
    exact ih _

theorem run_script {i : Nat} (at_i : es[i]? = some e) (S : Scene) :
    S.run lead (a.script es i) = a.stage lead true ((es.take i).foldl (a.stage lead false) S) e := by
  rw [← run_stages,Artist.script,at_i,Scene.run,List.foldl_append]
  simp [Artist.stage,Scene.run]

theorem replayed {first : List Event} {s' : Canvas} (done : first.foldlM (a.replay lit) s = some s') :
    ∀ e ∈ first, (a.animationActions e).isSome = true := by
  induction first generalizing s with
  | nil => simp
  | cons e first ih =>
    obtain ⟨s₁,here,rest⟩ := Option.bind_eq_some_iff.mp done
    obtain ⟨acts,found,_⟩ := Option.bind_eq_some_iff.mp here
    intro e' member
    rcases List.mem_cons.mp member with rfl | later
    · exact Option.isSome_of_eq_some found
    · exact ih rest e' later

/-- Every event up to a frame that is written has its calls. -/
theorem framed {i : Nat} (done : a.drawAnimation es i = some s) (at_i : es[i]? = some e) :
    ∀ e' ∈ es.take i ++ [e], (a.animationActions e').isSome = true := by
  have played : ∀ {s₀ : Canvas}, a.playFrame es i s₀ = some s → ∀ e' ∈ es.take i ++ [e], (a.animationActions e').isSome = true := by
    intro s₀ frame
    simp only [Artist.playFrame,Option.bind_eq_bind,Option.bind_eq_some_iff] at frame
    obtain ⟨e₁,there,s₁,before,last⟩ := frame
    obtain rfl : e = e₁ := Option.some_inj.mp (at_i.symm.trans there)
    obtain ⟨acts,found,_⟩ := Option.bind_eq_some_iff.mp last
    intro e' member
    rcases List.mem_append.mp member with first | here
    · exact replayed before e' first
    · rw [List.mem_singleton.mp here]
      exact Option.isSome_of_eq_some found
  cases i with
  | zero =>
    obtain ⟨s₀,_,frame⟩ := Option.bind_eq_some_iff.mp done
    exact played frame
  | succ i =>
    obtain ⟨s₀,_,frame⟩ := Option.bind_eq_some_iff.mp done
    exact played frame

theorem actions_branch (found : (a.animationActions e).isSome = true) : Branch (a.actions e) e.shown e.arc e.gone := by
  obtain ⟨acts,drawn⟩ := Option.isSome_iff_exists.mp found
  rw [Artist.actions,drawn,Option.getD_some]
  exact animation_branch drawn

/-- What is drawn of a node. -/
theorem picture_node (held : Showing a es s S) (key : Str) :
    (s.picture.node key).map DotNode.penwidth = (S.nodes key).map fun mark => if mark.lit then 3 else 1 := by
  cases shown : S.nodes key with
  | none =>
    have holds := held.depicts.node key
    rw [shown] at holds
    have hidden : s.picture.node key = none := by
      rw [Canvas.picture,Option.filter_eq_none_iff]
      intro n there
      simp [holds n there]
    rw [hidden]
    rfl
  | some mark =>
    cases mark with
    | process lit =>
      obtain ⟨t,face,style,_,_,_,seen⟩ := picture_process held shown
      rw [seen]
      cases lit with
      | true => rfl
      | false =>
        rw [Artist.dress]
        cases a.group t <;> rfl
    | file name lit =>
      have holds := held.depicts.node key
      rw [shown] at holds
      obtain ⟨face,style,there⟩ := holds
      simp only [Canvas.picture,there]
      cases lit <;> rfl

section
variable (lead) {i : Nat} (done : a.drawAnimation es i = some s) (at_i : es[i]? = some e)
include done at_i

theorem node_lives (S : Scene) (blank : ∀ key, S.nodes key = none) (key : Str) :
    let seen := ((S.run lead (a.script es i)).nodes key).map Mark.lit
    (seen.isSome = true ↔ Lives (fun e => key ∈ e.shown) (fun e => e.gone = some key) (es.take (i + 1))) ∧
      (seen = some true ↔ key ∈ e.shown) := by
  rw [run_script at_i,List.take_add_one,at_i,Option.toList_some]
  apply lives_lit (fun e => key ∈ e.shown) (fun e => e.gone = some key) (a.stage lead)
    (fun S => (S.nodes key).map Mark.lit)
  · rw [blank key,Option.map_none]
  · intro e' member lit S
    exact (actions_branch (framed done at_i e' member)).nodes key

theorem edge_lives (S : Scene) (blank : ∀ arc, S.edges arc = none) (arc : Arc) (seen : arc.link ≠ .chown) :
    let drawn := (S.run lead (a.script es i)).edges arc
    (drawn.isSome = true ↔ Lives (fun e => e.arc = some arc)
      (fun e => lead arc = true ∧ ∃ key, e.gone = some key ∧ arc.touches key) (es.take (i + 1))) ∧
      (drawn = some true ↔ e.arc = some arc) := by
  have touched : (fun e : Event => lead arc = true ∧ ∃ key, e.gone = some key ∧ arc.touches key) =
      fun e => e.gone.any (fun key => lead arc && arc.touches key) = true := by
    funext e
    cases e.gone <;> simp
  rw [touched,run_script at_i,List.take_add_one,at_i,Option.toList_some]
  apply lives_lit (fun e => e.arc = some arc) (fun e => e.gone.any (fun key => lead arc && arc.touches key) = true)
    (a.stage lead) (fun S => S.edges arc)
  · exact blank arc
  · intro e' member lit S
    exact (actions_branch (framed done at_i e' member)).edges arc seen

end

/-- The edges that events draw, in their order. -/
def arcs (es : List Event) : List Arc := es.filterMap Event.arc

theorem Branch.arcs (branch : Branch acts shown drawn gone) : acts.filterMap Action.drawn = drawn.toList := by
  cases branch <;> rfl

theorem arcsOf_eq (es : List Event) : arcsOf es = arcs es := by
  rw [arcsOf,arcs,List.filterMap_flatMap]
  induction es with
  | nil => rfl
  | cons e es ih =>
    rw [List.flatMap_cons,ih,(static_branch e).arcs,List.filterMap_cons]
    cases e.arc <;> rfl

theorem mem_arcs {arc : Arc} : arc ∈ arcs es ↔ ∃ e ∈ es, e.arc = some arc := List.mem_filterMap

/-- Which edge is the first between its ends is settled once it is drawn. -/
theorem leads_take {arc : Arc} {n : Nat} (drawn : ∃ e ∈ es.take n, e.arc = some arc) :
    leads (arcsOf es) arc = leads (arcs (es.take n)) arc := by
  have split : arcs es = arcs (es.take n) ++ arcs (es.drop n) := by
    rw [arcs,arcs,arcs,← List.filterMap_append,List.take_append_drop]
  rw [arcsOf_eq,split,leads_append (mem_arcs.mpr drawn)]

/-- An edge that is not the first between its ends is drawn after one of another type. -/
theorem unled {arc : Arc} (member : arc ∈ arcs es) (led : leads (arcs es) arc = false) :
    ∃ first e rest link, es = first ++ e :: rest ∧ e.arc = some ⟨arc.src,arc.trg,link⟩ ∧
      ∀ e' ∈ first ++ [e], e'.arc ≠ some arc := by
  induction es with
  | nil => cases member
  | cons e es ih =>
    cases drawn : e.arc with
    | none =>
      have tail : arcs (e :: es) = arcs es := by simp [arcs,drawn]
      rw [tail] at member led
      obtain ⟨first,e',rest,link,rfl,its,none⟩ := ih member led
      refine ⟨e :: first,e',rest,link,rfl,its,List.forall_mem_cons.mpr ⟨by simp [drawn],none⟩⟩
    | some arc₀ =>
      have tail : arcs (e :: es) = arc₀ :: arcs es := by simp [arcs,drawn]
      rw [tail] at member led
      have other : arc₀ ≠ arc := by
        rintro rfl
        simp [leads,arc₀.equal_refl] at led
      cases same : arc.equal arc₀ with
      | true =>
        obtain ⟨src,trg⟩ := of_decide_eq_true same
        refine ⟨[],e,es,arc₀.link,rfl,by rw [drawn,src,trg],?_⟩
        simpa [drawn] using other
      | false =>
        have later := (List.mem_cons.mp member).resolve_left (Ne.symm other)
        obtain ⟨first,e',rest,link,rfl,its,none⟩ := ih later (by simpa [leads,same] using led)
        exact ⟨e :: first,e',rest,link,rfl,its,List.forall_mem_cons.mpr ⟨by simpa [drawn] using other,none⟩⟩

/-- What is in view at a frame. An exit takes away the first of the edges between two ends. -/
structure Frames (es : List Event) (i : Nat) (e : Event) (p : Picture) : Prop where
  node : ∀ key, (p.node key).isSome = true ↔
    Lives (fun e => key ∈ e.shown) (fun e => e.gone = some key) (es.take (i + 1))
  edge : ∀ arc, (p.edge arc).isSome = true ↔ arc.link ≠ .chown ∧
    Lives (fun e => e.arc = some arc)
      (fun e => leads (arcs (es.take (i + 1))) arc = true ∧ ∃ key, e.gone = some key ∧ arc.touches key) (es.take (i + 1))
  node_lit : ∀ key n, p.node key = some n → (n.penwidth = 3 ↔ key ∈ e.shown)
  edge_lit : ∀ arc d, p.edge arc = some d → (d.penwidth = 3 ↔ e.arc = some arc)

theorem frames {i : Nat} {p : Picture} (written : a.frame es i = some p) (at_i : es[i]? = some e) : Frames es i e p := by
  obtain ⟨s,done,rfl⟩ := Option.map_eq_some_iff.mp written
  obtain ⟨s₀,_,showing,_⟩ := drawAnimation_showing done
  have nodes := fun key => node_lives (leads (arcsOf es)) done at_i (a.finished es) (fun _ => rfl) key
  have edges := fun arc => edge_lives (leads (arcsOf es)) done at_i (a.finished es) (fun _ => rfl) arc
  constructor
  · intro key
    have seen := congrArg Option.isSome (picture_node showing key)
    rw [Option.isSome_map,Option.isSome_map] at seen
    have lives := (nodes key).1
    rw [Option.isSome_map] at lives
    rw [seen,lives]
  · intro arc
    rw [picture_edge showing arc,Option.isSome_map]
    by_cases chown : arc.link = .chown
    · rw [showing.depicts.quiet arc chown]
      simp [chown]
    · rw [(edges arc chown).1,ne_eq,and_iff_right chown]
      refine Lives.congr fun drawn e => ?_
      rw [leads_take drawn]
  · intro key n found
    have seen := picture_node showing key
    have lives := (nodes key).2
    rw [found,Option.map_some,eq_comm,Option.map_eq_some_iff] at seen
    obtain ⟨mark,there,width⟩ := seen
    rw [there,Option.map_some,Option.some_inj] at lives
    rw [← lives,← width]
    cases mark.lit <;> simp
  · intro arc d found
    have seen := picture_edge showing arc
    rw [found,eq_comm,Option.map_eq_some_iff] at seen
    obtain ⟨lit,there,width⟩ := seen
    have visible : arc.link ≠ .chown := by
      intro chown
      rw [showing.depicts.quiet arc chown] at there
      cases there
    have lives := (edges arc visible).2
    rw [there,Option.some_inj] at lives
    rw [← lives,← width]
    cases lit <;> simp [Artist.drawn]

end

/-- A written frame shows what its events up to it drew and no exit took away since, and
highlights what the last one drew. -/
theorem frame_shows (m : TraceMap) (lower : Char → Str) (dedupOn : Bool) (evs : List Event) (i : Nat) (p : Picture)
    (written : draw m lower dedupOn evs i = some p) :
    ∃ es d e, (if dedupOn then dedup m evs else some (evs,[])) = some (es,d) ∧ es[i]? = some e ∧ Frames es i e p := by
  obtain ⟨⟨es,d⟩,drawn,frame⟩ := Option.bind_eq_some_iff.mp written
  obtain ⟨s,done,_⟩ := Option.map_eq_some_iff.mp frame
  obtain ⟨e,at_i⟩ := drawAnimation_getElem done
  exact ⟨es,d,e,drawn,at_i,frames frame at_i⟩

/-- An edge in a frame has both its ends in view, but for one whose ends were joined by an
event of another type before it was first drawn. -/
theorem no_dangling_edge (m : TraceMap) (lower : Char → Str) (dedupOn : Bool) (evs es : List Event) (d : DedupDict)
    (i : Nat) (p : Picture) (listed : (if dedupOn then dedup m evs else some (evs,[])) = some (es,d))
    (written : draw m lower dedupOn evs i = some p) (arc : Arc) (seen : (p.edge arc).isSome = true) :
    ((p.node arc.src).isSome = true ∧ (p.node arc.trg).isSome = true) ∨ ∃ first e rest link,
      es.take (i + 1) = first ++ e :: rest ∧ e.arc = some ⟨arc.src,arc.trg,link⟩ ∧ ∀ e' ∈ first ++ [e], e'.arc ≠ some arc := by
  obtain ⟨_,drawn,frame⟩ := Option.bind_eq_some_iff.mp written
  cases listed.symm.trans drawn
  obtain ⟨s,done,_⟩ := Option.map_eq_some_iff.mp frame
  obtain ⟨e,at_i⟩ := drawAnimation_getElem done
  have framed := frames frame at_i
  obtain ⟨_,lives⟩ := (framed.edge arc).mp seen
  cases led : leads (arcs (es.take (i + 1))) arc with
  | true =>
    have ends : ∀ key, arc.touches key → (p.node key).isSome = true := by
      intro key touch
      apply (framed.node key).mpr
      apply lives.mono
      · intro e drawn
        rcases touch with rfl | rfl
        · exact (Event.arc_shown drawn).1
        · exact (Event.arc_shown drawn).2
      · intro e gone
        exact ⟨led,key,gone,touch⟩
    exact .inl ⟨ends arc.src (.inl rfl),ends arc.trg (.inr rfl)⟩
  | false =>
    obtain ⟨before,e',after,split,its,_⟩ := lives
    have member : arc ∈ arcs (es.take (i + 1)) := mem_arcs.mpr ⟨e',by rw [split]; simp,its⟩
    obtain ⟨first,e',rest,link,split,its,none⟩ := unled member led
    exact .inr ⟨first,e',rest,link,split,its,none⟩

def shell : Trace :=
  ⟨some "h".toList,some "7".toList,some "1".toList,"init".toList,"sh".toList,some "root".toList,some "/".toList,[],[]⟩

def shellEvent (kind : Kind) : Event := ⟨"1".toList,some "h".toList,some "7".toList,kind⟩

def listing : Event := shellEvent (.exec "ls".toList "execve".toList none none none none)

def rooted : Event := shellEvent (.chroot (some "/srv".toList))

def oneShell : Artist := ⟨[("h".toList,[("7".toList,shell)])],[],fun c => [c]⟩

/-- The process 7 forks the process 8. -/
def shells : TraceMap := [("h".toList,[("7".toList,shell),("8".toList,{shell with pid := some "8".toList})])]

def shellForks : Event := shellEvent (.fork (some "8".toList))

def childGone : Event := {shellEvent (.exit (some "0".toList)) with pid := some "8".toList}

def connects : Event := shellEvent (.connect (some "h".toList) (some "80".toList) "8".toList)

/-- Once the child is gone, its node and the edge of the fork are too, but not that of the
connection. -/
theorem frame_shows_childGone :
    let p := (draw shells (fun c => [c]) false [shellForks,connects,childGone] 2).get (by decide)
    Frames [shellForks,connects,childGone] 2 childGone p ∧ (p.node "8@h".toList).isSome = false ∧
      (p.edge ⟨"7@h".toList,"8@h".toList,.fork⟩).isSome = false ∧
      (p.edge ⟨"7@h".toList,"8@h".toList,.connect⟩).isSome = true := by
  obtain ⟨es,d,e,same,at_i,frames⟩ :=
    frame_shows shells (fun c => [c]) false [shellForks,connects,childGone] 2 _ (Option.some_get (by decide)).symm
  cases same
  cases at_i
  exact ⟨frames,by decide,by decide,by decide⟩

theorem no_dangling_edge_shellForks :
    (((draw shells (fun c => [c]) false [shellForks,childGone] 0).get (by decide)).node "7@h".toList).isSome = true ∧
    (((draw shells (fun c => [c]) false [shellForks,childGone] 0).get (by decide)).node "8@h".toList).isSome = true := by
  rcases no_dangling_edge shells (fun c => [c]) false [shellForks,childGone] [shellForks,childGone] [] 0 _ rfl
    (Option.some_get (by decide)).symm ⟨"7@h".toList,"8@h".toList,.fork⟩ (by decide) with both | ⟨first,e,rest,_,split,_,none⟩
  · exact both
  · -- the fork is the first event
    obtain rfl : first = [] := by
      cases first with
      | nil => rfl
      | cons e' first => simpa using congrArg List.length split
    cases split
    exact absurd rfl (none shellForks List.mem_cons_self)

/-! The static figure. -/

section
variable {a : Artist} {es : List Event} {e : Event} {s s' : Canvas} {act : Action} {key : Str}

/-- What an event changes of a process. -/
theorem static_change {ν : Type} (f : Change → Option ν) (nothing : f {} = none) (is_key : '@' ∈ key) (e : Event) :
    lastWrite (fun x => f (Scene.change (partitionAt key) x)) ((staticActions e).map (Prod.mk false)) = f (e.changeOf key) := by
  have same : ∀ key', '@' ∈ key' → (partitionAt key' = partitionAt key ↔ key' = key) :=
    fun key' is_key' => ⟨partitionAt_inj is_key' is_key,fun equal => by rw [equal]⟩
  have alone : ∀ c, lastWrite (fun x => f (Scene.change (partitionAt key) x)) [(false,.node e.pidhost c)] =
      f (if e.pidhost = key then c else {}) := by
    intro c
    simp only [lastWrite,Scene.change,Option.none_or,same e.pidhost (at_mem_pidhost e.pid e.host)]
  have twice : ∀ key' (second : Action) arc, second = .node key' {} ∨ (∃ name, second = .fileNode key' name) →
      lastWrite (fun x => f (Scene.change (partitionAt key) x))
        [(false,.node e.pidhost {}),(false,second),(false,.edge arc)] = f {} := by
    rintro key' second arc (rfl | ⟨name,rfl⟩) <;> simp [lastWrite,Scene.change,nothing]
  unfold staticActions Event.changeOf Event.change
  cases e.kind with
  | exec | seteuid | chdir => exact alone _
  | chroot => exact alone {}
  | accept | recv | exit => exact nothing.symm.trans (by rw [ite_self])
  | «open» | chown => exact (twice _ _ _ (.inr ⟨_,rfl⟩)).trans (by rw [ite_self])
  | _ => exact (twice _ _ _ (.inl rfl)).trans (by rw [ite_self])

theorem static_last {ν : Type} (f : Change → Option ν) (nothing : f {} = none) (is_key : '@' ∈ key) :
    lastWrite (fun x => f (Scene.change (partitionAt key) x)) ((es.flatMap staticActions).map (Prod.mk false)) =
      (es.filterMap fun e => f (e.changeOf key)).getLast? := by
  rw [List.map_flatMap,lastWrite_flatMap,lastWrite_eq_getLast?]
  congr 2
  exact funext fun e => static_change f nothing is_key e

/-- The static drawing leaves each process as its events do. -/
theorem static_after {t : Trace} (is_key : '@' ∈ key) (trace : a.trace key = some t) :
    (a.blank.run everyEdge ((es.flatMap staticActions).map (Prod.mk false))).attrs (partitionAt key) = t.after key es := by
  have initial : a.initial (partitionAt key) = t.initial := trace_initial trace
  have last : ∀ {ν : Type} (f : Change → Option ν) (v : Option ν), f {} = none →
      (lastWrite (fun x => (f (Scene.change (partitionAt key) x)).map some)
        ((es.flatMap staticActions).map (Prod.mk false))).getD v =
        ((es.filterMap fun e => f (e.changeOf key)).getLast?).or v := by
    intro ν f v nothing
    rw [static_last (fun c => (f c).map some) (by rw [nothing]; rfl) is_key,← List.map_filterMap,List.getLast?_map]
    cases (es.filterMap fun e => f (e.changeOf key)).getLast? <;> rfl
  apply Attrs.ext
  · refine ((Scene.exeCell everyEdge (partitionAt key)).read_run a.blank ((es.flatMap staticActions).map (Prod.mk false))).trans ?_
    rw [Trace.after,← static_last Change.exe rfl is_key]
    exact congrArg (Option.getD _) (congrArg Attrs.exe initial)
  · refine ((Scene.euidCell everyEdge (partitionAt key)).read_run a.blank ((es.flatMap staticActions).map (Prod.mk false))).trans ?_
    exact (congrArg (Option.getD _) (congrArg Attrs.euid initial)).trans (last Change.uid _ rfl)
  · refine ((Scene.workingDirCell everyEdge (partitionAt key)).read_run a.blank
      ((es.flatMap staticActions).map (Prod.mk false))).trans ?_
    exact (congrArg (Option.getD _) (congrArg Attrs.workingDir initial)).trans (last Change.workingDir _ rfl)

structure Posed (a : Artist) (es : List Event) (s : Canvas) : Prop where
  process : ∀ key n, OnlyProcess es key → '@' ∈ key → s.nodeMap.get key = some n → ∃ t face, a.trace key = some t ∧
    n = a.dress t (partitionAt key).1 (s.cur (partitionAt key)) face .filled
  filled : ∀ key n, s.nodeMap.get key = some n → n.style = .filled
  visible : ∀ arc d, s.edgeMap.get arc = some d → d.style ≠ .invis

theorem dress_style (a : Artist) (t : Trace) (pid : Str) (cur : Attrs) (face : Face) (style : Style) :
    (a.dress t pid cur face style).style = style := by
  unfold Artist.dress
  cases a.group t <;> rfl

theorem show_visible {link : Link} {d : DotEdge} (visible : d.style ≠ .invis) : (d.show link).style ≠ .invis := by
  cases link with
  | chown => exact visible
  | _ => exact fun no => by cases no

theorem Posed.getNode {c : Change} (held : Posed a es s) (is_key : '@' ∈ key) (done : a.getNode key c s = some s') :
    Posed a es s' := by
  obtain ⟨t,face,style,names,face',names',trace,base,paint,rfl⟩ := getNode_eq done
  have filled : style = .filled := by
    unfold Artist.base at base
    cases old : s.nodeMap.get key with
    | some node =>
      rw [old] at base
      cases base
      exact held.filled key node old
    | none =>
      rw [old] at base
      obtain ⟨⟨f,n⟩,created,made⟩ := Option.map_eq_some_iff.mp base
      cases made
      rfl
  refine ⟨fun key' n only is_key' found => ?_,fun key' n found => ?_,held.visible⟩
  · dsimp only at found ⊢
    rw [Dict.get_set] at found
    split_ifs at found with same
    · subst same
      cases found
      rw [Function.update_self,filled]
      exact ⟨t,face',trace,rfl⟩
    · have other : partitionAt key' ≠ partitionAt key := fun equal => same (partitionAt_inj is_key' is_key equal).symm
      rw [Function.update_of_ne other]
      exact held.process key' n only is_key' found
  · dsimp only at found
    rw [Dict.get_set] at found
    split_ifs at found with same
    · cases found
      rw [dress_style]
      exact filled
    · exact held.filled key' n found

theorem Posed.perform (held : Posed a es s) (mine : act.Of es) (stays : ∀ key, act ≠ .hide key)
    (done : a.perform s act = some s') : Posed a es s' := by
  cases act with
  | node key c => exact held.getNode mine.1 done
  | fileNode key name =>
    cases done
    obtain ⟨e,member,its⟩ := mine
    refine ⟨fun key' n only is_key found => ?_,fun key' n found => ?_,held.visible⟩
    · simp only [Canvas.getFileNode,Dict.get_set] at found
      split_ifs at found with same
      · exact absurd (same ▸ its) (only e member)
      · exact held.process key' n only is_key found
    · simp only [Canvas.getFileNode,Dict.get_set] at found
      split_ifs at found with same
      · cases found
        cases old : s.nodeMap.get key with
        | none => rfl
        | some node => exact held.filled key node old
      · exact held.filled key' n found
  | edge arc =>
    cases done
    refine ⟨held.process,held.filled,fun arc' d found => ?_⟩
    simp only [Canvas.getEdge,Dict.get_set] at found
    split_ifs at found with same
    · cases found
      apply show_visible
      cases old : s.edgeMap.get arc with
      | none => exact fun no => by cases no
      | some d => exact held.visible arc d old
    · exact held.visible arc' d found
  | hide key => exact absurd rfl (stays key)

/-- The key whose node a call of the static drawing gets. -/
def Action.gets : Action → Option Str
  | .node key _ | .fileNode key _ => some key
  | _ => none

theorem perform_nodes (stays : ∀ key, act ≠ .hide key) (done : a.perform s act = some s') (key : Str) :
    (s'.nodeMap.get key).isSome = true ↔ (s.nodeMap.get key).isSome = true ∨ act.gets = some key := by
  cases act with
  | node key' c =>
    obtain ⟨t,face,style,names,face',names',_,_,_,rfl⟩ := getNode_eq done
    by_cases same : key' = key <;> simp [Dict.get_set,Action.gets,same]
  | fileNode key' name =>
    cases done
    by_cases same : key' = key <;> simp [Canvas.getFileNode,Dict.get_set,Action.gets,same]
  | edge arc =>
    cases done
    simp [Action.gets,Canvas.getEdge]
  | hide key => exact absurd rfl (stays key)

theorem performs_posed {acts : List Action} (held : Posed a es s) (mine : ∀ act ∈ acts, act.Of es ∧ ∀ key, act ≠ .hide key)
    (done : acts.foldlM a.perform s = some s') : Posed a es s' ∧
      ∀ key, (s'.nodeMap.get key).isSome = true ↔ (s.nodeMap.get key).isSome = true ∨ ∃ act ∈ acts, act.gets = some key := by
  induction acts generalizing s with
  | nil =>
    cases done
    exact ⟨held,by simp⟩
  | cons act acts ih =>
    obtain ⟨s₁,first,rest⟩ := Option.bind_eq_some_iff.mp done
    obtain ⟨its,stays⟩ := mine act List.mem_cons_self
    obtain ⟨posed,nodes⟩ := ih (held.perform its stays first) (fun act' member => mine act' (List.mem_cons_of_mem act member)) rest
    refine ⟨posed,fun key => ?_⟩
    rw [nodes,perform_nodes stays first,or_assoc]
    simp only [List.mem_cons,exists_eq_or_imp]

/-- The calls of a branch that hides nothing. -/
theorem Branch.calls {acts : List Action} {shown : List Str} {drawn : Option Arc} (branch : Branch acts shown drawn none) :
    (∀ key, .hide key ∉ acts) ∧ (∀ key, (∃ act ∈ acts, act.gets = some key) ↔ key ∈ shown) ∧
      ∀ arc, .edge arc ∈ acts ↔ drawn = some arc := by
  cases branch with
  | nothing => simp
  | alone key c => simp [Action.gets,eq_comm]
  | _ arc => simp [Action.gets,eq_comm]

theorem shown_process (member : e ∈ es) (only : OnlyProcess es key) (its : key ∈ e.shown) : key ∈ e.processes := by
  have either : key ∈ e.processes ++ e.files := by
    unfold Event.shown at its
    cases kind : e.kind <;> simp only [kind] at its <;> first | exact its | cases its
  exact (List.mem_append.mp either).resolve_right (only e member)

/-- The canvas of the static drawing. -/
theorem static_spec (drawn : a.drawStatic es = some s) : Sound a es s ∧ Posed a es s ∧
    s.cur = (a.blank.run everyEdge ((es.flatMap staticActions).map (Prod.mk false))).attrs ∧
    (∀ key, (s.nodeMap.get key).isSome = true ↔ ∃ e ∈ es, key ∈ e.shown) ∧
    ∀ arc, (s.edgeMap.get arc).isSome = true ↔ ∃ e ∈ es, e.arc = some arc := by
  have mine : ∀ act ∈ es.flatMap staticActions, act.Of es ∧ ∀ key, act ≠ .hide key := by
    intro act member
    obtain ⟨e,of_es,its⟩ := List.mem_flatMap.mp member
    exact ⟨on_of of_es (static_on its),fun key hides => (static_branch e).calls.1 key (hides ▸ its)⟩
  have start : Sound a es ⟨[],[],[],Names.start,a.initial⟩ :=
    ⟨fun _ _ _ => rfl,fun _ _ _ no => (by cases no),fun _ _ _ no => (by cases no),fun _ _ no => (by cases no)⟩
  have posed : Posed a es ⟨[],[],[],Names.start,a.initial⟩ :=
    ⟨fun _ _ _ _ no => (by cases no),fun _ _ no => (by cases no),fun _ _ no => (by cases no)⟩
  obtain ⟨sound,cur,_,_,edges,_⟩ :=
    performs_spec (S := a.blank) everyEdge (fun act member => (mine act member).1) start rfl (fun _ _ no => by cases no) drawn
  obtain ⟨held,nodes⟩ := performs_posed posed mine drawn
  refine ⟨sound,held,cur,fun key => ?_,fun arc => ?_⟩
  · rw [nodes]
    constructor
    · rintro (no | ⟨act,member,gets⟩)
      · cases no
      · obtain ⟨e,of_es,its⟩ := List.mem_flatMap.mp member
        exact ⟨e,of_es,((static_branch e).calls.2.1 key).mp ⟨act,its,gets⟩⟩
    · rintro ⟨e,of_es,its⟩
      obtain ⟨act,member,gets⟩ := ((static_branch e).calls.2.1 key).mpr its
      exact .inr ⟨act,List.mem_flatMap.mpr ⟨e,of_es,member⟩,gets⟩
  · rw [edges]
    constructor
    · rintro (no | member)
      · cases no
      · obtain ⟨e,of_es,its⟩ := List.mem_flatMap.mp member
        exact ⟨e,of_es,((static_branch e).calls.2.2 arc).mp its⟩
    · rintro ⟨e,of_es,its⟩
      exact .inr (List.mem_flatMap.mpr ⟨e,of_es,((static_branch e).calls.2.2 arc).mpr its⟩)

theorem Posed.picture (held : Posed a es s) (key : Str) : s.picture.node key = s.nodeMap.get key := by
  cases found : s.nodeMap.get key with
  | none => simp [Canvas.picture,found]
  | some n => simp [Canvas.picture,found,held.filled key n found]

end

/-- What the static figure shows of some events. -/
structure Static (a : Artist) (es : List Event) (s : Canvas) : Prop where
  node : ∀ key, (s.picture.node key).isSome = true ↔ ∃ e ∈ es, key ∈ e.shown
  edge : ∀ arc, (s.picture.edge arc).isSome = true ↔ ∃ e ∈ es, e.arc = some arc
  process : ∀ key, OnlyProcess es key → (∃ e ∈ es, key ∈ e.shown) → ∃ t face, a.trace key = some t ∧
    s.names.Shows face (t.after key es) ∧
    s.picture.node key = some (a.dress t (partitionAt key).1 (t.after key es) face .filled)

/-- The static figure keeps the nodes and the edges of all events, and shows each process with
the executable, the user and the working directory that they leave it. -/
theorem static_final (a : Artist) (es : List Event) (s : Canvas) (drawn : a.drawStatic es = some s) : Static a es s := by
  obtain ⟨sound,held,cur,nodes,edges⟩ := static_spec drawn
  constructor
  · intro key
    rw [held.picture,nodes]
  · intro arc
    have visible : (s.picture.edge arc).isSome = (s.edgeMap.get arc).isSome := by
      cases found : s.edgeMap.get arc with
      | none => simp [Canvas.picture,found]
      | some d => simp [Canvas.picture,found,held.visible arc d found]
    rw [visible,edges]
  · rintro key only ⟨e,of_es,its⟩
    obtain ⟨n,there⟩ := Option.isSome_iff_exists.mp ((nodes key).mpr ⟨e,of_es,its⟩)
    have is_key : '@' ∈ key := at_mem_processes (shown_process of_es only its)
    obtain ⟨t,face,trace,made⟩ := held.process key n only is_key there
    have shows := sound.process key n is_key there only
    rw [cur,static_after is_key trace] at made shows
    rw [made,dress_face] at shows
    exact ⟨t,face,trace,shows,by rw [held.picture,there,made]⟩

/-- The parent is shown with what it executed, and the child although it is gone. -/
theorem static_final_listing :
    Static ⟨shells,[],fun c => [c]⟩ [shellForks,listing,childGone]
      (((Artist.mk shells [] fun c => [c]).drawStatic [shellForks,listing,childGone]).get (by decide)) ∧
    (shell.after "7@h".toList [shellForks,listing,childGone]).exe = "ls".toList ∧ "8@h".toList ∈ shellForks.shown :=
  ⟨static_final ⟨shells,[],fun c => [c]⟩ [shellForks,listing,childGone] _ (Option.some_get (by decide)).symm,
    by decide,by decide⟩

end SelfPropelled.SecStar
