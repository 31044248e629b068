import SelfPropelled.SecStar.Figures

/-! Whether a frame is the fold of its events over the initial picture. -/

namespace SelfPropelled.SecStar
open Library

/-- The exits up to event `i` end no edge but the first one between its ends: each edge that is
drawn is that one, or none of its ends exits after it was last drawn. -/
def Led (es : List Event) (i : Nat) : Prop :=
  ∀ arc, arc.link ≠ .chown → (∃ e ∈ es.take (i + 1), e.arc = some arc) →
    leads (arcs (es.take (i + 1))) arc = true ∨
      Lives (fun e => e.arc = some arc) (fun e => ∃ key, e.gone = some key ∧ arc.touches key) (es.take (i + 1))

section
variable {a : Artist} {es : List Event} {i : Nat} {s : Canvas} {e : Event}

theorem run_chown (S : Scene) {lead : Arc → Bool} {arc : Arc} (chown : arc.link = .chown) (empty : S.edges arc = none)
    (script : List (Bool × Action)) : (S.run lead script).edges arc = none := by
  refine ((Scene.edgeCell lead arc).read_run S script).trans ?_
  cases last : lastWrite (Scene.edgeCell lead arc).effect script with
  | none => exact empty
  | some v =>
    obtain ⟨⟨lit,action⟩,_,wrote⟩ := lastWrite_mem last
    change Scene.edgeEffect lead arc (lit,action) = some v at wrote
    cases action with
    | edge arc' =>
      simp only [Scene.edgeEffect] at wrote
      split_ifs at wrote with same
      exact absurd (same.2 ▸ chown) same.1
    | hide key =>
      simp only [Scene.edgeEffect] at wrote
      split_ifs at wrote
      cases wrote
      rfl
    | _ => cases wrote

/-- An edge is left just as it would be if every exit hid all edges, or it is not the first
between its ends and not hidden. -/
theorem edge_led_iff (S S' : Scene) (done : a.drawAnimation es i = some s) (at_i : es[i]? = some e)
    (blank : ∀ arc, S.edges arc = none) (blank' : ∀ arc, S'.edges arc = none) (arc : Arc) (seen : arc.link ≠ .chown) :
    (S.run everyEdge (a.script es i)).edges arc = (S'.run (leads (arcsOf es)) (a.script es i)).edges arc ↔
      ((∃ e ∈ es.take (i + 1), e.arc = some arc) → leads (arcs (es.take (i + 1))) arc = true ∨
        Lives (fun e => e.arc = some arc) (fun e => ∃ key, e.gone = some key ∧ arc.touches key) (es.take (i + 1))) := by
  obtain ⟨lives,lit⟩ := edge_lives everyEdge done at_i S blank arc seen
  obtain ⟨lives',lit'⟩ := edge_lives (leads (arcsOf es)) done at_i S' blank' arc seen
  have every : everyEdge arc = true := rfl
  simp only [every,true_and] at lives
  have same : (S.run everyEdge (a.script es i)).edges arc = (S'.run (leads (arcsOf es)) (a.script es i)).edges arc ↔
      (((S.run everyEdge (a.script es i)).edges arc).isSome = true ↔
        ((S'.run (leads (arcsOf es)) (a.script es i)).edges arc).isSome = true) := by
    constructor
    · intro equal
      rw [equal]
    · intro both
      have lights := lit.trans lit'.symm
      cases here : (S.run everyEdge (a.script es i)).edges arc with
      | none =>
        have hidden : ¬((S'.run (leads (arcsOf es)) (a.script es i)).edges arc).isSome = true :=
          fun shown => by simpa [here] using both.mpr shown
        exact (Option.not_isSome_iff_eq_none.mp hidden).symm
      | some l =>
        cases there : (S'.run (leads (arcsOf es)) (a.script es i)).edges arc with
        | none => simp [here,there] at both
        | some l' =>
          rw [here,there,Option.some_inj,Option.some_inj] at lights
          rw [Bool.eq_iff_iff.mpr lights]
  rw [same,lives,lives']
  by_cases drawn : ∃ e ∈ es.take (i + 1), e.arc = some arc
  · rw [leads_take drawn]
    cases led : leads (arcs (es.take (i + 1))) arc with
    | true => simp
    | false =>
      have endless : Lives (fun e : Event => e.arc = some arc)
          (fun e => false = true ∧ ∃ key, e.gone = some key ∧ arc.touches key) (es.take (i + 1)) :=
        (lives_endless fun _ no => by cases no.1).mpr drawn
      rw [iff_true_right endless]
      simp [drawn]
  · exact iff_of_true ⟨fun lived => absurd lived.brought drawn,fun lived => absurd lived.brought drawn⟩ fun has => absurd has drawn

theorem edges_led_iff (done : a.drawAnimation es i = some s) (at_i : es[i]? = some e)
    (showing : Showing a es s ((a.finished es).run (leads (arcsOf es)) (a.script es i))) :
    (fun arc => ((a.blank.run everyEdge (a.script es i)).edges arc).map (Artist.drawn arc.link)) = s.picture.edge ↔
      Led es i := by
  have drawn_inj : ∀ link, Function.Injective (Artist.drawn link) := by
    intro link l l' same
    have width := congrArg DotEdge.penwidth same
    cases l <;> cases l' <;> simp [Artist.drawn] at width ⊢
  rw [funext_iff]
  refine forall_congr' fun arc => ?_
  rw [picture_edge showing arc]
  by_cases chown : arc.link = .chown
  · rw [run_chown a.blank chown rfl,run_chown (a.finished es) chown rfl]
    exact iff_of_true rfl fun seen => absurd chown seen
  · rw [(Option.map_injective (drawn_inj arc.link)).eq_iff,
      edge_led_iff a.blank (a.finished es) done at_i (fun _ => rfl) (fun _ => rfl) arc chown]
    exact ⟨fun led _ => led,fun led => led chown⟩

/-! The nodes. `s₀` is drawn for the events up to `i`, `s` when frame `i` is written. -/

variable {s₀ : Canvas} {key : Str} {lit : Bool}

section
variable (showing : Showing a es s ((a.finished es).run (leads (arcsOf es)) (a.script es i)))
include showing

theorem process_past (le : s₀.names.Le s.names)
    (asked : ∀ act ∈ (es.take (i + 1)).flatMap staticActions, Asked a es s₀.names act) (clear : Clear es key)
    (view : a.InView es i key (.process lit)) (alone : (a.trace key).bind a.group = none)
    (same : ((a.finished es).run (leads (arcsOf es)) (a.script es i)).attrs (partitionAt key) =
      (a.blank.run everyEdge (a.script es i)).attrs (partitionAt key)) :
    a.render s₀.names (a.blank.run everyEdge (a.script es i)) key (.process lit) = s.picture.node key := by
  obtain ⟨_,⟨e,member,its⟩,_⟩ := inView_process view
  have only : OnlyProcess es key := clear.kind.resolve_right fun no => no e member its
  have shown : ((a.finished es).run (leads (arcsOf es)) (a.script es i)).nodes key = some (.process lit) :=
    (congrFun (finished_nodes a es i) key).trans view
  obtain ⟨t,face,style,_,trace,shows,seen⟩ := picture_process showing shown
  obtain ⟨f,named⟩ := inView_named view clear only asked
  have single : a.group t = none := by
    rw [trace] at alone
    exact alone
  rw [same] at shows seen
  have face_eq : face = f := by
    apply Face.ext
    · exact Option.some_inj.mp ((shows only).label.symm.trans (le.letters _ _ named.label))
    · exact Option.some_inj.mp ((shows only).fillcolor.symm.trans (le.colours _ _ named.fillcolor))
  rw [seen,face_eq]
  simp only [Artist.render,trace,Option.map_some,named.label,named.fillcolor,Option.getD_some,Artist.dress,single]
  cases lit <;> rfl

theorem file_past {name : Option Str} (n : Names) (clear : Clear es key) (view : a.InView es i key (.file name lit)) :
    a.render n (a.blank.run everyEdge (a.script es i)) key (.file name lit) = s.picture.node key := by
  obtain ⟨e,member,its⟩ := inView_file view
  have only : OnlyFile es key := clear.kind.resolve_left fun no => no e member its
  have holds := showing.depicts.node key
  rw [(congrFun (finished_nodes a es i) key).trans view] at holds
  obtain ⟨face,style,there⟩ := holds
  have same : face = ⟨['F'],.green⟩ := by
    rw [← showing.sound.file key _ there only]
    cases lit <;> rfl
  simp only [Canvas.picture,there,same]
  cases lit <;> rfl

theorem nodes_past (le : s₀.names.Le s.names)
    (asked : ∀ act ∈ (es.take (i + 1)).flatMap staticActions, Asked a es s₀.names act)
    (legible : Legible a es i) (settled : Settled a es i) :
    (fun key => ((a.blank.run everyEdge (a.script es i)).nodes key).bind
      (a.render s₀.names (a.blank.run everyEdge (a.script es i)) key)) = s.picture.node := by
  funext key
  cases view : (a.blank.run everyEdge (a.script es i)).nodes key with
  | none =>
    have holds := showing.depicts.node key
    rw [(congrFun (finished_nodes a es i) key).trans view] at holds
    rw [Option.bind_none,eq_comm,Canvas.picture,Option.filter_eq_none_iff]
    intro n there
    simp [holds n there]
  | some mark =>
    cases mark with
    | process lit =>
      obtain ⟨alone,same⟩ := settled key lit view
      exact process_past showing le asked (legible key _ view) view alone same
    | file name lit => exact file_past showing s₀.names (legible key _ view) view

/-- The tooltip tells whether a process in view stands for itself and is what it was then. -/
theorem settled_of_past (view : a.InView es i key (.process lit))
    (drawn : a.render s₀.names (a.blank.run everyEdge (a.script es i)) key (.process lit) = s.picture.node key) :
    (a.trace key).bind a.group = none ∧ ((a.finished es).run (leads (arcsOf es)) (a.script es i)).attrs (partitionAt key) =
      (a.blank.run everyEdge (a.script es i)).attrs (partitionAt key) := by
  have shown : ((a.finished es).run (leads (arcsOf es)) (a.script es i)).nodes key = some (.process lit) :=
    (congrFun (finished_nodes a es i) key).trans view
  obtain ⟨t,face,style,_,trace,_,seen⟩ := picture_process showing shown
  rw [seen,Artist.render,trace,Option.map_some] at drawn
  have tip := congrArg DotNode.tooltip (Option.some_inj.mp drawn)
  have told : ((a.dress t (partitionAt key).1 (((a.finished es).run (leads (arcsOf es)) (a.script es i)).attrs
      (partitionAt key)) face style).present lit).tooltip = (a.dress t (partitionAt key).1
        (((a.finished es).run (leads (arcsOf es)) (a.script es i)).attrs (partitionAt key)) face style).tooltip := by
    cases lit <;> rfl
  rw [told,Artist.dress] at tip
  rw [trace,Option.bind_some]
  cases group : a.group t with
  | some pids =>
    rw [group] at tip
    cases tip
  | none =>
    rw [group] at tip
    obtain ⟨_,exe,euid,_,_,workingDir⟩ := Tip.process.inj tip
    exact ⟨rfl,Attrs.ext exe.symm euid.symm workingDir.symm⟩

end

end

end SelfPropelled.SecStar
