import SelfPropelled.PayloadStack

/-! Which executions of a well-nested run get the entry payload and which the exit payload. -/

namespace SelfPropelled.Payload

/-- A handle taken off the stack: for which execution, by the exit of which point,
with which return value. -/
structure Return where
  call : Instance
  pt : Point
  result : Nat

namespace CallTree

def instances : CallTree → List Instance
  | ret => []
  | call i _ _ _ body next => i :: (body.instances ++ next.instances)
  | frame body next => body.instances ++ next.instances
  | tailCall i _ body => i :: body.instances

/-- The tail calls outside every instrumented call of the tree, the innermost first. -/
def outer : CallTree → List Instance
  | ret => []
  | call _ _ _ _ _ next => next.outer
  | frame body next => next.outer ++ body.outer
  | tailCall i _ body => body.outer ++ [i]

/-- The exit of a call is that of the tail calls its body left behind and then of the call itself. -/
def returns : CallTree → List Return
  | ret => []
  | call i result _ _ body next => body.returns ++ (body.outer ++ [i]).map (⟨·,i.pt,result⟩) ++ next.returns
  | frame body next => body.returns ++ next.returns
  | tailCall _ _ body => body.returns

theorem pending_eq (c : Context) (t : CallTree) : t.pending c = t.outer.map c.entryHandle := by
  induction t with
  | ret => rfl
  | call i result entryInner exitInner body next _ ih => exact ih
  | frame body next ihBody ihNext => simp [pending,outer,ihBody,ihNext]
  | tailCall i entryInner body ih => simp [pending,outer,ih]

/-- Every execution is either returned from or still on the stack. -/
theorem returns_outer (t : CallTree) : (t.returns.map Return.call ++ t.outer).Perm t.instances := by
  induction t with
  | ret => exact .refl _
  | call i result entryInner exitInner body next ihBody ihNext =>
    have own : ((body.outer ++ [i]).map fun j => (⟨j,i.pt,result⟩ : Return)).map Return.call =
        body.outer ++ [i] := by simp [Function.comp_def]
    have shape : (call i result entryInner exitInner body next).returns.map Return.call ++ next.outer =
        (body.returns.map Return.call ++ body.outer) ++ i :: (next.returns.map Return.call ++ next.outer) := by
      rw [returns,List.map_append,List.map_append,own]
      simp
    rw [outer,shape]
    exact (ihBody.append ((ihNext.cons i))).trans List.perm_middle
  | frame body next ihBody ihNext =>
    simp only [returns,outer,instances,List.map_append]
    have swap : (next.returns.map Return.call ++ (next.outer ++ body.outer)).Perm
        (body.outer ++ (next.returns.map Return.call ++ next.outer)) := by
      rw [← List.append_assoc]
      exact List.perm_append_comm
    rw [List.append_assoc]
    refine (swap.append_left _).trans ?_
    rw [← List.append_assoc]
    exact ihBody.append ihNext
  | tailCall i entryInner body ih =>
    simp only [returns,outer,instances,← List.append_assoc]
    exact List.perm_append_comm.trans (ih.cons i)

end CallTree

def Action.entered : Action → Option PointCallHandle
  | .entryPayload h => some h
  | _ => none

def Action.exited : Action → Option PointCallHandle
  | .exitPayload h => some h
  | _ => none

/-- Of each execution the exit payload is called as often as the entry payload, and
with the handle of that execution. -/
def Paired (instances : List Instance) (log : List Action) : Prop :=
  ∀ i ∈ instances,
    ((log.filterMap Action.exited).map PointCallHandle.id).count i.id =
      ((log.filterMap Action.entered).map PointCallHandle.id).count i.id ∧
    ∀ h ∈ log.filterMap Action.exited, h.id = i.id →
      h.pt = i.pt ∧ h.callee = i.callee ∧ h.userInfo = i.info

/-- Every handle that is taken off is of an execution whose entry payload runs, if the exit
that takes it has an exit payload, and else of one whose entry payload does not run; nor
does it for a tail call outside all instrumented calls. -/
def Context.Answers (c : Context) (t : CallTree) : Prop :=
  (∀ r ∈ t.returns, c.hasExit r.pt = c.entryRuns r.call) ∧ ∀ i ∈ t.outer, c.entryRuns i = false

def Context.returnHandle (c : Context) (r : Return) : PointCallHandle :=
  {c.entryHandle r.call with returnValue := r.result}

theorem entered_entryTrace (c : Context) (i : Instance) :
    (c.entryTrace i).filterMap Action.entered = ([i].filter c.entryRuns).map Instance.handle := by
  obtain ⟨ipc,threads,dl,hasEntry,hasExit⟩ := c
  obtain ⟨id,pt,callee,info⟩ := i
  cases callee <;> cases ipc <;> cases threads <;> cases runs : hasEntry pt <;>
    simp [Context.entryTrace,Context.entryActions,Context.entryRuns,Instance.handle,
      Action.entered,List.filterMap_cons,runs]

theorem exited_entryTrace (c : Context) (i : Instance) : (c.entryTrace i).filterMap Action.exited = [] := by
  obtain ⟨ipc,threads,dl,hasEntry,hasExit⟩ := c
  obtain ⟨id,pt,callee,info⟩ := i
  cases callee <;> cases ipc <;> cases threads <;> cases runs : hasEntry pt <;>
    simp [Context.entryTrace,Context.entryActions,Instance.handle,Action.exited,List.filterMap_cons,runs]

theorem entered_exitTrace (c : Context) (pt : Point) (result : Nat) (handles : List PointCallHandle) :
    (c.exitTrace pt result handles).filterMap Action.entered = [] := by
  induction handles with
  | nil => rfl
  | cons h handles ih =>
    rw [Context.exitTrace] at ih ⊢
    rw [List.flatMap_cons,List.filterMap_append,ih]
    simp only [Context.exitActions]
    split_ifs <;> rfl

theorem exited_exitTrace (c : Context) (pt : Point) (result : Nat) (calls : List Instance) :
    (c.exitTrace pt result (calls.map c.entryHandle)).filterMap Action.exited =
      ((calls.map (⟨·,pt,result⟩)).filter fun r : Return => c.hasExit r.pt).map c.returnHandle := by
  induction calls with
  | nil => rfl
  | cons i calls ih =>
    rw [Context.exitTrace] at ih ⊢
    rw [List.map_cons,List.flatMap_cons,List.filterMap_append,ih]
    obtain ⟨ipc,threads,dl,hasEntry,hasExit⟩ := c
    cases ipc <;> cases dl <;> cases runs : hasExit pt <;>
      simp [Context.exitActions,Action.exited,List.filterMap_cons,runs,Context.returnHandle]

theorem entered_trace (c : Context) (t : CallTree) :
    (t.trace c).filterMap Action.entered = (t.instances.filter c.entryRuns).map Instance.handle := by
  induction t with
  | ret => rfl
  | call i result entryInner exitInner body next ihBody ihNext =>
    rw [CallTree.instances,← List.singleton_append]
    simp only [CallTree.trace,List.filterMap_append,List.filter_append,List.map_append,entered_entryTrace,
      entered_exitTrace,ihBody,ihNext,List.nil_append,List.append_assoc]
  | frame body next ihBody ihNext => simp [CallTree.trace,CallTree.instances,ihBody,ihNext]
  | tailCall i entryInner body ih =>
    rw [CallTree.instances,← List.singleton_append]
    simp only [CallTree.trace,List.filterMap_append,List.filter_append,List.map_append,entered_entryTrace,ih]

theorem exited_trace (c : Context) (t : CallTree) :
    (t.trace c).filterMap Action.exited = (t.returns.filter fun r => c.hasExit r.pt).map c.returnHandle := by
  induction t with
  | ret => rfl
  | call i result entryInner exitInner body next ihBody ihNext =>
    have own : body.pending c ++ [c.entryHandle i] = (body.outer ++ [i]).map c.entryHandle := by
      simp [CallTree.pending_eq]
    rw [CallTree.trace,CallTree.returns,own]
    rw [List.filterMap_append,List.filterMap_append,List.filterMap_append,exited_entryTrace,exited_exitTrace]
    simp only [ihBody,ihNext,List.filter_append,List.map_append,List.nil_append]
  | frame body next ihBody ihNext => simp [CallTree.trace,CallTree.returns,ihBody,ihNext]
  | tailCall i entryInner body ih => simp [CallTree.trace,CallTree.returns,exited_entryTrace,ih]

theorem returns_call_mem {t : CallTree} {r : Return} (member : r ∈ t.returns) : r.call ∈ t.instances :=
  t.returns_outer.subset (List.mem_append_left _ (List.mem_map_of_mem member))

/-- For each execution: it is returned from by an exit with an exit payload just when its
entry payload runs. -/
theorem answers_iff (c : Context) (t : CallTree) (distinct : (t.returns.map Return.call ++ t.outer).Nodup) :
    c.Answers t ↔ ∀ i ∈ t.instances,
      (∃ r ∈ t.returns, r.call = i ∧ c.hasExit r.pt = true) ↔ c.entryRuns i = true := by
  obtain ⟨once,_,apart⟩ := List.nodup_append.mp distinct
  constructor
  · rintro ⟨returned,left⟩ i hi
    constructor
    · rintro ⟨r,hr,rfl,runs⟩
      rw [← returned r hr,runs]
    · intro runs
      rcases List.mem_append.mp (t.returns_outer.symm.subset hi) with back | still
      · obtain ⟨r,hr,rfl⟩ := List.mem_map.mp back
        exact ⟨r,hr,rfl,(returned r hr).trans runs⟩
      · rw [left i still] at runs
        cases runs
  · intro each
    refine ⟨fun r hr => ?_,fun i hi => ?_⟩
    · rw [Bool.eq_iff_iff]
      constructor
      · intro runs
        exact (each r.call (returns_call_mem hr)).mp ⟨r,hr,rfl,runs⟩
      · intro runs
        obtain ⟨r',hr',same,gives⟩ := (each r.call (returns_call_mem hr)).mpr runs
        rwa [List.inj_on_of_nodup_map once hr' hr same] at gives
    · cases runs : c.entryRuns i with
      | false => rfl
      | true =>
        obtain ⟨r,hr,same,_⟩ := (each i (t.returns_outer.subset (List.mem_append_right _ hi))).mpr runs
        exact absurd same (apart _ (List.mem_map_of_mem hr) i hi)

theorem paired_trace (c : Context) (t : CallTree) (distinct : (t.instances.map Instance.id).Nodup) :
    Paired t.instances (t.trace c) ↔ c.Answers t := by
  have calls : (t.returns.map Return.call ++ t.outer).Nodup := t.returns_outer.nodup_iff.mpr (.of_map _ distinct)
  rw [answers_iff c t calls]
  have entryIds : ((t.trace c).filterMap Action.entered).map PointCallHandle.id =
      (t.instances.filter c.entryRuns).map Instance.id := by
    rw [entered_trace,List.map_map]
    rfl
  have exitIds : ((t.trace c).filterMap Action.exited).map PointCallHandle.id =
      (t.returns.filter fun r => c.hasExit r.pt).map (·.call.id) := by
    rw [exited_trace,List.map_map]
    rfl
  have entryOnce : ((t.instances.filter c.entryRuns).map Instance.id).Nodup :=
    distinct.sublist (List.filter_sublist.map _)
  have exitOnce : ((t.returns.filter fun r => c.hasExit r.pt).map (·.call.id)).Nodup := by
    have all : ((t.returns.map Return.call ++ t.outer).map Instance.id).Nodup :=
      (t.returns_outer.map _).nodup_iff.mpr distinct
    rw [List.map_append,List.map_map] at all
    exact all.of_append_left.sublist (List.filter_sublist.map _)
  have same {i j : Instance} (hi : i ∈ t.instances) (hj : j ∈ t.instances) (equal : i.id = j.id) : i = j :=
    List.inj_on_of_nodup_map distinct hi hj equal
  have entered {i : Instance} (hi : i ∈ t.instances) :
      i.id ∈ (t.instances.filter c.entryRuns).map Instance.id ↔ c.entryRuns i = true := by
    constructor
    · intro member
      obtain ⟨j,chosen,equal⟩ := List.mem_map.mp member
      obtain ⟨hj,runs⟩ := List.mem_filter.mp chosen
      rwa [← same hj hi equal]
    · intro runs
      exact List.mem_map_of_mem (List.mem_filter.mpr ⟨hi,runs⟩)
  have exited {i : Instance} (hi : i ∈ t.instances) :
      i.id ∈ (t.returns.filter fun r => c.hasExit r.pt).map (·.call.id) ↔
        ∃ r ∈ t.returns, r.call = i ∧ c.hasExit r.pt = true := by
    constructor
    · intro member
      obtain ⟨r,chosen,equal⟩ := List.mem_map.mp member
      obtain ⟨hr,runs⟩ := List.mem_filter.mp chosen
      exact ⟨r,hr,same (returns_call_mem hr) hi equal,runs⟩
    · rintro ⟨r,hr,rfl,runs⟩
      exact List.mem_map.mpr ⟨r,List.mem_filter.mpr ⟨hr,runs⟩,rfl⟩
  constructor
  · intro paired i hi
    have equal := (paired i hi).1
    rw [entryIds,exitIds,entryOnce.count,exitOnce.count] at equal
    rw [← exited hi,← entered hi]
    split_ifs at equal with left right right <;> simp [left,right]
  · intro answers i hi
    refine ⟨?_,?_⟩
    · have iff := (exited hi).trans ((answers i hi).trans (entered hi).symm)
      rw [entryIds,exitIds,entryOnce.count,exitOnce.count]
      simp only [iff]
    · intro h member equal
      rw [exited_trace] at member
      obtain ⟨r,chosen,rfl⟩ := List.mem_map.mp member
      obtain ⟨hr,runs⟩ := List.mem_filter.mp chosen
      obtain rfl := same (returns_call_mem hr) hi equal
      have entry := (answers _ hi).mp ⟨r,hr,rfl,runs⟩
      exact ⟨rfl,rfl,if_pos entry⟩

/-- The payloads are paired just when each exit answers the entry payloads of the executions
whose handles it takes, and no entry payload is left unanswered. -/
theorem payload_pairing_iff (c : Context) (tailcall : Point → Bool) (t : CallTree)
    (ok : t.Consistent tailcall) (distinct : (t.instances.map Instance.id).Nodup) :
    (∃ N, ∀ n ≥ N, Paired t.instances ((soloStep c)^[n] (false,.initial t.events)).2.log) ↔ c.Answers t := by
  have whole := tree_runs c t ok [] [] []
  simp only [List.append_nil,List.nil_append] at whole
  obtain ⟨N,done⟩ := whole.settles
  rw [← paired_trace c t distinct]
  constructor
  · rintro ⟨M,paired⟩
    have final := paired (N + M) (by omega)
    have rest : (soloStep c)^[N + M] (false,.initial t.events) = idle [] (t.pending c) (t.trace c) :=
      done (N + M) (by omega)
    rw [rest] at final
    exact final
  · intro paired
    refine ⟨N,fun n more => ?_⟩
    have rest : (soloStep c)^[n] (false,.initial t.events) = idle [] (t.pending c) (t.trace c) := done n more
    rw [rest]
    exact paired

theorem payload_pairing_chain : ∃ N, ∀ n ≥ N,
    Paired chain.instances ((soloStep plainContext)^[n] (false,.initial chain.events)).2.log :=
  (payload_pairing_iff plainContext (fun pt => pt == 2) chain ⟨rfl,⟨rfl,trivial⟩,trivial⟩ (by decide)).mpr
    (by unfold Context.Answers; decide)

def unresolved : CallTree := .call ⟨0,1,none,10⟩ 99 [] (fun _ => []) .ret .ret

/-- Its exit payload runs though its entry payload did not. -/
theorem unresolved_unpaired : unresolved.Consistent (fun _ => false) ∧
    (unresolved.instances.map Instance.id).Nodup ∧
    ¬∃ N, ∀ n ≥ N, Paired unresolved.instances
      ((soloStep plainContext)^[n] (false,.initial unresolved.events)).2.log := by
  have ok : unresolved.Consistent fun _ => false := ⟨rfl,trivial,trivial⟩
  refine ⟨ok,by decide,?_⟩
  rintro ⟨N,paired⟩
  obtain ⟨M,done⟩ := (tree_runs plainContext unresolved ok [] [] []).settles
  have final := paired (N + M) (by omega)
  have rest : (soloStep plainContext)^[N + M] (false,.initial unresolved.events) =
      idle [] (unresolved.pending plainContext) (unresolved.trace plainContext) := done (N + M) (by omega)
  rw [rest] at final
  have counts := (final ⟨0,1,none,10⟩ (by decide)).1
  exact absurd counts (by decide)

end SelfPropelled.Payload
