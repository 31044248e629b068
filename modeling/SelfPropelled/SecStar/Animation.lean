import SelfPropelled.SecStar.Frames

/-! Whether a frame shows the past of its events only. -/

namespace SelfPropelled.SecStar
open Library

/-- The key stands for processes only or for files only, and is split as it was made. -/
structure Clear (es : List Event) (key : Str) : Prop where
  kind : OnlyProcess es key ∨ OnlyFile es key
  child : ∀ e ∈ es, ∀ child, e.child? = some child → pidhostOf child e.host = key → '@' ∉ format child

/-- In view at the end of frame `i`. -/
def Artist.InView (a : Artist) (es : List Event) (i : Nat) (key : Str) (mark : Mark) : Prop :=
  (a.blank.run everyEdge (a.script es i)).nodes key = some mark

def Legible (a : Artist) (es : List Event) (i : Nat) : Prop := ∀ key mark, a.InView es i key mark → Clear es key

/-- Every process in view stands for itself alone, and the events up to `i` leave it the
executable, user and working directory that they leave it after all events were drawn. -/
def Settled (a : Artist) (es : List Event) (i : Nat) : Prop :=
  ∀ key lit, a.InView es i key (.process lit) → (a.trace key).bind a.group = none ∧
    ((a.finished es).run (leads (arcsOf es)) (a.script es i)).attrs (partitionAt key) =
      (a.blank.run everyEdge (a.script es i)).attrs (partitionAt key)

section
variable {a : Artist} {es : List Event} {i : Nat} {key : Str}

theorem drawAnimation_getElem {s : Canvas} (done : a.drawAnimation es i = some s) : ∃ e, es[i]? = some e := by
  have played : ∀ {s₀ : Canvas} {s : Canvas}, a.playFrame es i s₀ = some s → ∃ e, es[i]? = some e := by
    intro s₀ s done
    simp only [Artist.playFrame,Option.bind_eq_bind,Option.bind_eq_some_iff] at done
    obtain ⟨e,at_i,_⟩ := done
    exact ⟨e,at_i⟩
  cases i with
  | zero =>
    obtain ⟨s₀,_,frame⟩ := Option.bind_eq_some_iff.mp done
    exact played frame
  | succ i =>
    obtain ⟨s₀,_,frame⟩ := Option.bind_eq_some_iff.mp done
    exact played frame

/-- The events up to `i` were drawn on the way to the static drawing of all. -/
theorem drawStatic_take {s : Canvas} (done : a.drawStatic es = some s) (i : Nat) :
    ∃ s₀, a.drawStatic (es.take i) = some s₀ ∧ s₀.names.Le s.names ∧
      ∀ act ∈ (es.take i).flatMap staticActions, Asked a es s₀.names act := by
  have mine : ∀ act ∈ es.flatMap staticActions, act.Of es := by
    intro act member
    obtain ⟨e,of_es,its⟩ := List.mem_flatMap.mp member
    exact on_of of_es (static_on its)
  have start : Sound a es ⟨[],[],[],Names.start,a.initial⟩ :=
    ⟨fun _ _ _ => rfl,fun _ _ _ no => (by cases no),fun _ _ _ no => (by cases no),fun _ _ no => (by cases no)⟩
  have split : es.flatMap staticActions =
      (es.take i).flatMap staticActions ++ (es.drop i).flatMap staticActions := by
    rw [← List.flatMap_append,List.take_append_drop]
  rw [split] at mine
  rw [Artist.drawStatic,split,List.foldlM_append] at done
  obtain ⟨s₀,first,rest⟩ := Option.bind_eq_some_iff.mp done
  obtain ⟨sound,cur,headed,_,_,asked⟩ := performs_spec (S := a.blank) everyEdge
    (fun act member => mine act (List.mem_append_left _ member)) start rfl (fun _ _ no => by cases no) first
  obtain ⟨_,_,_,le,_,_⟩ := performs_spec everyEdge
    (fun act member => mine act (List.mem_append_right _ member)) sound cur headed rest
  exact ⟨s₀,first,le,asked⟩

/-- An action of the script is one of an event up to `i`. -/
theorem script_cases {x : Bool × Action} (member : x ∈ a.script es i) :
    ∃ e ∈ es.take (i + 1), ∃ acts, a.animationActions e = some acts ∧ x.2 ∈ acts := by
  have found : ∀ {e : Event}, x.2 ∈ a.actions e → ∃ acts, a.animationActions e = some acts ∧ x.2 ∈ acts := by
    intro e its
    cases drawn : a.animationActions e with
    | none => simp [Artist.actions,drawn] at its
    | some acts => exact ⟨acts,rfl,by simpa [Artist.actions,drawn] using its⟩
  simp only [Artist.script,List.mem_append,List.mem_map,List.mem_flatMap] at member
  rcases member with ⟨action,⟨e,before,its⟩,rfl⟩ | ⟨action,⟨e,here,its⟩,rfl⟩
  · exact ⟨e,List.take_subset_take_left es (Nat.le_succ i) before,found its⟩
  · have at_i : es[i]? = some e := by simpa using here
    refine ⟨e,List.mem_iff_getElem?.mpr ⟨i,?_⟩,found its⟩
    rw [List.getElem?_take_of_succ]
    exact at_i

theorem inView_mem {mark : Mark} (view : a.InView es i key mark) :
    ∃ x ∈ a.script es i, Scene.nodeEffect key x = some (some mark) := by
  have ran := (Scene.nodeCell everyEdge key).read_run a.blank (a.script es i)
  have last : lastWrite (Scene.nodeEffect key) (a.script es i) = some (some mark) := by
    have shown : (lastWrite (Scene.nodeEffect key) (a.script es i)).getD none = some mark := ran.symm.trans view
    cases wrote : lastWrite (Scene.nodeEffect key) (a.script es i) with
    | none => simp [wrote] at shown
    | some v => rw [wrote,Option.getD_some] at shown; rw [shown]
  exact lastWrite_mem last

/-- A process in view was got in the static drawing of the events up to `i`. -/
theorem inView_process {lit : Bool} (view : a.InView es i key (.process lit)) :
    '@' ∈ key ∧ (∃ e ∈ es, key ∈ e.processes) ∧ ∃ c, .node key c ∈ (es.take (i + 1)).flatMap staticActions := by
  obtain ⟨⟨lit',action⟩,member,wrote⟩ := inView_mem view
  obtain ⟨e,before,acts,found,its⟩ := script_cases member
  cases action with
  | node key' c =>
    have same : key' = key := by
      by_contra other
      simp [Scene.nodeEffect,other] at wrote
    subst same
    have on := animation_on found its
    refine ⟨at_mem_processes on,⟨e,List.mem_of_mem_take before,on⟩,?_⟩
    rcases animation_cases found its with static | ⟨child,t,_,_,made,static⟩ | ⟨_,_,_,no,_⟩ | no
    · exact ⟨c,List.mem_flatMap.mpr ⟨e,before,static⟩⟩
    · cases made
      exact ⟨{},List.mem_flatMap.mpr ⟨e,before,static⟩⟩
    · cases no
    · cases no
  | fileNode key' name => by_cases same : key' = key <;> simp [Scene.nodeEffect,same] at wrote
  | edge arc => simp [Scene.nodeEffect] at wrote
  | hide key' => by_cases same : key' = key <;> simp [Scene.nodeEffect,same] at wrote

theorem inView_file {name : Option Str} {lit : Bool} (view : a.InView es i key (.file name lit)) :
    ∃ e ∈ es, key ∈ e.files := by
  obtain ⟨⟨lit',action⟩,member,wrote⟩ := inView_mem view
  obtain ⟨e,before,acts,found,its⟩ := script_cases member
  cases action with
  | fileNode key' name' =>
    have same : key' = key := by
      by_contra other
      simp [Scene.nodeEffect,other] at wrote
    subst same
    have on := animation_on found its
    exact ⟨e,List.mem_of_mem_take before,on⟩
  | node key' c => by_cases same : key' = key <;> simp [Scene.nodeEffect,same] at wrote
  | edge arc => simp [Scene.nodeEffect] at wrote
  | hide key' => by_cases same : key' = key <;> simp [Scene.nodeEffect,same] at wrote

/-- A change that the script makes to a process was asked for in the static drawing, or gives
a child back what it was at first. -/
theorem change_cases {x : Bool × Action} (member : x ∈ a.script es i) (is_key : '@' ∈ key) (clear : Clear es key) :
    Scene.change (partitionAt key) x = {} ∨
      .node key (Scene.change (partitionAt key) x) ∈ (es.take (i + 1)).flatMap staticActions ∨
      (∃ t, a.trace key = some t ∧ Scene.change (partitionAt key) x = {exe := some t.initExe, uid := t.initEuid}) := by
  obtain ⟨lit,action⟩ := x
  obtain ⟨e,before,acts,found,its⟩ := script_cases member
  cases action with
  | node key' c =>
    by_cases same : partitionAt key' = partitionAt key
    · have on := animation_on found its
      obtain rfl := partitionAt_inj (at_mem_processes on) is_key same
      have its_change : Scene.change (partitionAt key') (lit,.node key' c) = c := by simp [Scene.change]
      rw [its_change]
      rcases animation_cases found its with static | ⟨child,t,forked,trace,made,_⟩ | ⟨_,_,_,no,_⟩ | no
      · exact .inr (.inl (List.mem_flatMap.mpr ⟨e,before,static⟩))
      · obtain ⟨rfl,rfl⟩ := Action.node.inj made
        refine .inr (.inr ⟨t,?_,rfl⟩)
        have plain := clear.child e (List.mem_of_mem_take before) child forked rfl
        obtain ⟨host,is_host,rest⟩ := Option.bind_eq_some_iff.mp trace
        obtain ⟨pid,is_child,there⟩ := Option.bind_eq_some_iff.mp rest
        have first : ∀ c ∈ pid, decide (c ≠ '@') = true := by
          intro c in_pid
          rw [is_child] at plain
          exact decide_eq_true fun is_at => plain (is_at ▸ in_pid)
        rw [is_host,is_child,Artist.trace,partitionAt,pidhostOf,format,format,
          List.takeWhile_append_of_pos first,List.dropWhile_append_of_pos first]
        simpa using there
      · cases no
      · cases no
    · exact .inl (by simp [Scene.change,same])
  | _ => exact .inl rfl

/-- The static drawing of the events up to `i` gave a letter and a colour to what a process in
view is then. -/
theorem inView_named {s₀ : Canvas} {lit : Bool} (view : a.InView es i key (.process lit)) (clear : Clear es key)
    (only : OnlyProcess es key)
    (asked : ∀ act ∈ (es.take (i + 1)).flatMap staticActions, Asked a es s₀.names act) :
    ∃ f, s₀.names.Shows f ((a.blank.run everyEdge (a.script es i)).attrs (partitionAt key)) := by
  obtain ⟨is_key,_,c,got⟩ := inView_process view
  obtain ⟨f,known⟩ := (asked _ got).2.2 only
  have exe : (s₀.names.exeInitial.get ((a.blank.run everyEdge (a.script es i)).attrs (partitionAt key)).exe).isSome = true := by
    have ran := (Scene.exeCell everyEdge (partitionAt key)).read_run a.blank (a.script es i)
    change ((a.blank.run everyEdge (a.script es i)).attrs (partitionAt key)).exe = _ at ran
    rw [ran]
    cases last : lastWrite (Scene.exeCell everyEdge (partitionAt key)).effect (a.script es i) with
    | none => exact Option.isSome_of_eq_some known.label
    | some exe =>
      obtain ⟨x,member,wrote⟩ := lastWrite_mem last
      change (Scene.change (partitionAt key) x).exe = some exe at wrote
      rcases change_cases member is_key clear with nothing | static | ⟨t,trace,back⟩
      · rw [nothing] at wrote
        cases wrote
      · exact (asked _ static).1 exe wrote
      · rw [back] at wrote
        cases wrote
        rw [trace_initial trace] at known
        exact Option.isSome_of_eq_some known.label
  have euid : (s₀.names.uidColor.get ((a.blank.run everyEdge (a.script es i)).attrs (partitionAt key)).euid).isSome = true := by
    have ran := (Scene.euidCell everyEdge (partitionAt key)).read_run a.blank (a.script es i)
    change ((a.blank.run everyEdge (a.script es i)).attrs (partitionAt key)).euid = _ at ran
    rw [ran]
    cases last : lastWrite (Scene.euidCell everyEdge (partitionAt key)).effect (a.script es i) with
    | none => exact Option.isSome_of_eq_some known.fillcolor
    | some euid =>
      obtain ⟨x,member,wrote⟩ := lastWrite_mem last
      obtain ⟨uid,given,rfl⟩ := Option.map_eq_some_iff.mp wrote
      rcases change_cases member is_key clear with nothing | static | ⟨t,trace,back⟩
      · rw [nothing] at given
        cases given
      · exact (asked _ static).2.1 uid given
      · rw [back] at given
        have same : t.initEuid = some uid := given
        have color := known.fillcolor
        rw [trace_initial trace,Trace.initial,same] at color
        exact Option.isSome_of_eq_some color
  obtain ⟨label,is_label⟩ := Option.isSome_iff_exists.mp exe
  obtain ⟨color,is_color⟩ := Option.isSome_iff_exists.mp euid
  exact ⟨⟨label,color⟩,is_label,is_color⟩

/-- The nodes in view do not depend on what the static drawing left of the processes. -/
theorem finished_nodes (a : Artist) (es : List Event) (i : Nat) : ((a.finished es).run (leads (arcsOf es)) (a.script es i)).nodes =
    (a.blank.run everyEdge (a.script es i)).nodes :=
  Scene.run_nodes a.blank (s := a.finished es) rfl _

/-- In a frame a node shows what the scene of its events, started with the processes as they
were left, has for it. -/
theorem picture_process {s : Canvas} {S : Scene} {lit : Bool} (held : Showing a es s S) (shown : S.nodes key = some (.process lit)) :
    ∃ t face style, '@' ∈ key ∧ a.trace key = some t ∧ (OnlyProcess es key → s.names.Shows face (S.attrs (partitionAt key))) ∧
      s.picture.node key =
        some ((a.dress t (partitionAt key).1 (S.attrs (partitionAt key)) face style).present lit) := by
  have holds := held.depicts.node key
  rw [shown] at holds
  obtain ⟨is_key,t,face,style,trace,there⟩ := holds
  have filled : ((a.dress t (partitionAt key).1 (S.attrs (partitionAt key)) face style).present lit).style = .filled := by
    cases lit <;> rfl
  have same : ((a.dress t (partitionAt key).1 (S.attrs (partitionAt key)) face style).present lit).toFace = face := by
    cases lit <;> exact dress_face a t (partitionAt key).1 (S.attrs (partitionAt key)) face style
  refine ⟨t,face,style,is_key,trace,fun only => ?_,?_⟩
  · have shows := held.sound.process key _ is_key there only
    rw [same,held.depicts.cur] at shows
    exact shows
  · simp only [Canvas.picture,there]
    exact Option.filter_eq_some_iff.mpr ⟨rfl,decide_eq_true filled⟩

theorem picture_edge {s : Canvas} {S : Scene} (held : Showing a es s S) (arc : Arc) :
    s.picture.edge arc = (S.edges arc).map (Artist.drawn arc.link) := by
  have holds := held.depicts.edge arc
  cases shown : S.edges arc with
  | none =>
    rw [shown] at holds
    rw [Option.map_none,Canvas.picture,Option.filter_eq_none_iff]
    intro e there
    simp [holds e there]
  | some lit =>
    have seen : (Artist.drawn arc.link lit).style ≠ .invis := by
      rw [Artist.drawn]
      cases arc.link <;> exact fun no => by cases no
    rw [shown] at holds
    simp only [Canvas.picture,show s.edgeMap.get arc = _ from holds]
    exact Option.filter_eq_some_iff.mpr ⟨rfl,decide_eq_true seen⟩

end

end SelfPropelled.SecStar
