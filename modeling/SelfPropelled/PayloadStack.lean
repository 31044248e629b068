import SelfPropelled.Payload

/-! The call-handle stack of one thread over well-nested calls, chains of tail
calls and frames the tool does not see. -/

namespace SelfPropelled.Payload

/-- What the rest of a frame does: return, call through an instrumented point and
go on, call through an uninstrumented one and go on, or end in an instrumented
tail call, whose callee takes the frame's place. -/
inductive CallTree
  | ret
  | call (call : Instance) (result : Nat) (entryInner : List Invocation)
      (exitInner : Nat → List Invocation) (body next : CallTree)
  | frame (body next : CallTree)
  | tailCall (call : Instance) (entryInner : List Invocation) (body : CallTree)

namespace CallTree

/-- The wrapper calls of the tree in the order they happen. A tail call has no exit. -/
def events : CallTree → List Invocation
  | ret => []
  | call i result entryInner exitInner body next =>
    .entry i entryInner :: (body.events ++ .exit i.pt result exitInner :: next.events)
  | frame body next => body.events ++ next.events
  | tailCall i entryInner body => .entry i entryInner :: body.events

/-- Each point is either always a tail point or never one. -/
def Consistent (tailcall : Point → Bool) : CallTree → Prop
  | ret => True
  | call i _ _ _ body next =>
    tailcall i.pt = false ∧ body.Consistent tailcall ∧ next.Consistent tailcall
  | frame body next => body.Consistent tailcall ∧ next.Consistent tailcall
  | tailCall i _ body => tailcall i.pt = true ∧ body.Consistent tailcall

end CallTree

def Context.entryHandle (c : Context) (i : Instance) : PointCallHandle :=
  {i.handle with userInfo := if c.entryRuns i then i.info else 0}

def Context.entryTrace (c : Context) (i : Instance) : List Action :=
  c.entryActions i.handle ++ [.push (c.entryHandle i)]

/-- Each handle is popped and its exit payload runs, the innermost first. -/
def Context.exitTrace (c : Context) (pt : Point) (result : Nat) (handles : List PointCallHandle) :
    List Action :=
  handles.flatMap fun h => .pop h :: c.exitActions pt {h with returnValue := result}

namespace CallTree

/-- The handles of the tail calls outside every instrumented call of the tree,
the innermost first. -/
def pending (c : Context) : CallTree → List PointCallHandle
  | ret => []
  | call _ _ _ _ _ next => next.pending c
  | frame body next => next.pending c ++ body.pending c
  | tailCall i _ body => body.pending c ++ [c.entryHandle i]

/-- What the thread is to do: an exit pops the tail-call handles of its call and then its own. -/
def trace (c : Context) : CallTree → List Action
  | ret => []
  | call i result _ _ body next => c.entryTrace i ++ body.trace c ++
      c.exitTrace i.pt result (body.pending c ++ [c.entryHandle i]) ++ next.trace c
  | frame body next => body.trace c ++ next.trace c
  | tailCall i _ body => c.entryTrace i ++ body.trace c

theorem pending_tailcall {c : Context} {tailcall : Point → Bool} {t : CallTree}
    (ok : t.Consistent tailcall) : ∀ h ∈ t.pending c, tailcall h.pt = true := by
  induction t with
  | ret => simp [pending]
  | call i result entryInner exitInner body next _ ih => exact ih ok.2.2
  | frame body next ihBody ihNext =>
    intro h member
    rcases List.mem_append.mp member with later | earlier
    · exact ihNext ok.2 h later
    · exact ihBody ok.1 h earlier
  | tailCall i entryInner body ih =>
    intro h member
    rcases List.mem_append.mp member with inner | own
    · exact ih ok.2 h inner
    · obtain rfl := List.mem_singleton.mp own
      exact ok.1

end CallTree

def idle (todo : List Invocation) (stack : List PointCallHandle) (log : List Action) : Bool × Thread :=
  (false,⟨[],todo,stack,log,none⟩)

/-- A thread alone gets from one state to the other. -/
def Reaches (c : Context) (s t : Bool × Thread) : Prop := ∃ n, (soloStep c)^[n] s = t

theorem Reaches.refl (c : Context) (s : Bool × Thread) : Reaches c s s := ⟨0,rfl⟩

theorem Reaches.head {c : Context} {s t : Bool × Thread} (rest : Reaches c (soloStep c s) t) :
    Reaches c s t := by
  obtain ⟨n,reached⟩ := rest
  exact ⟨n + 1,reached⟩

theorem Reaches.trans {c : Context} {s t u : Bool × Thread} (first : Reaches c s t)
    (second : Reaches c t u) : Reaches c s u := by
  obtain ⟨n,rfl⟩ := first
  obtain ⟨m,rfl⟩ := second
  exact ⟨m + n,Function.iterate_add_apply _ m n s⟩

theorem inner_ignored (c : Context) (inv : Invocation) (h : PointCallHandle) (popped : Nat)
    (inner todo : List Invocation) (stack : List PointCallHandle) (log : List Action) :
    Reaches c (true,⟨[⟨inv,.running,h,inner,popped⟩],todo,stack,log,none⟩)
      (true,⟨[⟨inv,.running,h,[],popped⟩],todo,stack,log,none⟩) := by
  induction inner with
  | nil => exact .refl _ _
  | cons call inner ih => exact .head (.head ih)

theorem entry_runs (c : Context) (i : Instance) (inner todo : List Invocation)
    (stack : List PointCallHandle) (log : List Action) :
    Reaches c (idle (.entry i inner :: todo) stack log)
      (idle todo (c.entryHandle i :: stack) (log ++ c.entryTrace i)) := by
  have before : Reaches c (idle (.entry i inner :: todo) stack log)
      (true,⟨[⟨.entry i inner,.running,i.handle,if c.entryRuns i then inner else [],0⟩],todo,stack,
        log ++ c.entryActions i.handle,none⟩) := ⟨5,rfl⟩
  have after : Reaches c (true,⟨[⟨.entry i inner,.running,i.handle,[],0⟩],todo,stack,
      log ++ c.entryActions i.handle,none⟩)
      (idle todo (c.entryHandle i :: stack) (log ++ c.entryTrace i)) :=
    ⟨3,by rw [Context.entryTrace,← List.append_assoc]; rfl⟩
  exact (before.trans (inner_ignored ..)).trans after

theorem exit_round (c : Context) (pt : Point) (result : Nat) (exitInner : Nat → List Invocation)
    (old h : PointCallHandle) (popped : Nat) (todo : List Invocation) (stack : List PointCallHandle)
    (log : List Action) :
    Reaches c (true,⟨[⟨.exit pt result exitInner,.pop,old,[],popped⟩],todo,h :: stack,log,none⟩)
      (true,⟨[⟨.exit pt result exitInner,.running,{h with returnValue := result},[],popped⟩],todo,stack,
        log ++ c.exitTrace pt result [h],none⟩) := by
  have popOne : Reaches c (true,⟨[⟨.exit pt result exitInner,.pop,old,[],popped⟩],todo,h :: stack,log,none⟩)
      (true,⟨[⟨.exit pt result exitInner,.running,{h with returnValue := result},
        if c.hasExit pt then exitInner popped else [],popped⟩],todo,stack,
        log ++ c.exitTrace pt result [h],none⟩) :=
    ⟨2,by simp [Context.exitTrace,soloStep,threadStep,wrapperStep]⟩
  exact popOne.trans (inner_ignored ..)

theorem exit_loop (c : Context) (pt : Point) (result : Nat) (exitInner : Nat → List Invocation)
    (old own : PointCallHandle) (popped : Nat) (todo : List Invocation)
    (tails stack : List PointCallHandle) (log : List Action) (mine : own.pt = pt)
    (others : ∀ h ∈ tails, h.pt ≠ pt) :
    Reaches c (true,⟨[⟨.exit pt result exitInner,.pop,old,[],popped⟩],todo,tails ++ own :: stack,log,none⟩)
      (idle todo stack (log ++ c.exitTrace pt result (tails ++ [own]))) := by
  induction tails generalizing old popped log with
  | nil =>
    refine (exit_round ..).trans ⟨2,?_⟩
    simp [soloStep,threadStep,wrapperStep,mine,idle]
  | cons h tails ih =>
    have differ : pt ≠ h.pt := fun same => others h (by simp) same.symm
    refine (exit_round ..).trans (.head ?_)
    have again := ih {h with returnValue := result} (popped + 1) (log ++ c.exitTrace pt result [h])
      fun g member => others g (by simp [member])
    simpa [soloStep,threadStep,wrapperStep,differ,Context.exitTrace] using again

theorem exit_runs (c : Context) (pt : Point) (result : Nat) (exitInner : Nat → List Invocation)
    (own : PointCallHandle) (todo : List Invocation) (tails stack : List PointCallHandle)
    (log : List Action) (mine : own.pt = pt) (others : ∀ h ∈ tails, h.pt ≠ pt) :
    Reaches c (idle (.exit pt result exitInner :: todo) (tails ++ own :: stack) log)
      (idle todo stack (log ++ c.exitTrace pt result (tails ++ [own]))) := by
  have enter : Reaches c (idle (.exit pt result exitInner :: todo) (tails ++ own :: stack) log)
      (true,⟨[⟨.exit pt result exitInner,.pop,nullHandle,[],0⟩],todo,tails ++ own :: stack,log,none⟩) :=
    ⟨4,rfl⟩
  exact enter.trans (exit_loop c pt result exitInner nullHandle own 0 todo tails stack log mine others)

/-- A tree of calls leaves on the stack the tail calls outside its instrumented calls. -/
theorem tree_runs (c : Context) {tailcall : Point → Bool} (t : CallTree) (ok : t.Consistent tailcall)
    (todo : List Invocation) (stack : List PointCallHandle) (log : List Action) :
    Reaches c (idle (t.events ++ todo) stack log)
      (idle todo (t.pending c ++ stack) (log ++ t.trace c)) := by
  induction t generalizing todo stack log with
  | ret => simpa [CallTree.events,CallTree.pending,CallTree.trace] using Reaches.refl c _
  | call i result entryInner exitInner body next ihBody ihNext =>
    obtain ⟨plain,okBody,okNext⟩ := ok
    have others : ∀ h ∈ body.pending c, h.pt ≠ i.pt := by
      intro h member same
      rw [← same,CallTree.pending_tailcall okBody h member] at plain
      cases plain
    have inside := ihBody okBody (.exit i.pt result exitInner :: (next.events ++ todo))
      (c.entryHandle i :: stack) (log ++ c.entryTrace i)
    have out := exit_runs c i.pt result exitInner (c.entryHandle i) (next.events ++ todo)
      (body.pending c) stack (log ++ c.entryTrace i ++ body.trace c) rfl others
    have onward := ihNext okNext todo stack (log ++ c.entryTrace i ++ body.trace c ++
      c.exitTrace i.pt result (body.pending c ++ [c.entryHandle i]))
    have whole := (((entry_runs c i entryInner _ stack log).trans inside).trans out).trans onward
    simpa [CallTree.events,CallTree.pending,CallTree.trace,List.append_assoc] using whole
  | frame body next ihBody ihNext =>
    have whole := (ihBody ok.1 (next.events ++ todo) stack log).trans (ihNext ok.2 todo _ _)
    simpa [CallTree.events,CallTree.pending,CallTree.trace,List.append_assoc] using whole
  | tailCall i entryInner body ih =>
    have whole := (entry_runs c i entryInner _ stack log).trans (ih ok.2 todo _ _)
    simpa [CallTree.events,CallTree.pending,CallTree.trace,List.append_assoc] using whole

theorem Reaches.settles {c : Context} {s : Bool × Thread} {stack : List PointCallHandle}
    {log : List Action} (reached : Reaches c s (idle [] stack log)) :
    ∃ N, ∀ n ≥ N, (soloStep c)^[n] s = idle [] stack log := by
  obtain ⟨N,done⟩ := reached
  refine ⟨N,fun n more => ?_⟩
  obtain ⟨k,rfl⟩ := Nat.exists_eq_add_of_le more
  have still : (soloStep c)^[k] (idle [] stack log) = idle [] stack log :=
    Function.iterate_fixed rfl k
  rw [Nat.add_comm,Function.iterate_add_apply,done,still]

theorem failed_stays (c : Context) {s : Bool × Thread} (failed : s.2.failed.isSome = true) (n : Nat) :
    (soloStep c)^[n] s = s := by
  refine Function.iterate_fixed ?_ n
  simp only [soloStep,threadStep,failed,if_true]

theorem Reaches.not_failed {c : Context} {s : Bool × Thread} {stack : List PointCallHandle}
    {log : List Action} (reached : Reaches c s (idle [] stack log)) (n : Nat) :
    ((soloStep c)^[n] s).2.failed = none := by
  obtain ⟨N,done⟩ := reached.settles
  cases failed : ((soloStep c)^[n] s).2.failed with
  | none => rfl
  | some f =>
    have stuck := failed_stays c (s := (soloStep c)^[n] s) (by simp [failed]) N
    rw [← Function.iterate_add_apply,done (N + n) (by omega)] at stuck
    rw [← stuck] at failed
    cases failed

/-- One instrumented call in any surroundings: its entry pushes a handle, its body
leaves tail-call handles above it, and its exit takes exactly these and its own,
the innermost first, with one exit payload for each. -/
def CallDisciplined (c : Context) (tailcall : Point → Bool) (i : Instance) (result : Nat)
    (entryInner : List Invocation) (exitInner : Nat → List Invocation) (body : CallTree) : Prop :=
  ∀ (todo : List Invocation) (stack : List PointCallHandle) (log : List Action),
    let own := c.entryHandle i
    let afterEntry := log ++ c.entryTrace i
    let afterBody := afterEntry ++ body.trace c
    let exit := Invocation.exit i.pt result exitInner
    Reaches c (idle (.entry i entryInner :: (body.events ++ exit :: todo)) stack log)
      (idle (body.events ++ exit :: todo) (own :: stack) afterEntry) ∧
    Reaches c (idle (body.events ++ exit :: todo) (own :: stack) afterEntry)
      (idle (exit :: todo) (body.pending c ++ own :: stack) afterBody) ∧
    (∀ h ∈ body.pending c, tailcall h.pt = true) ∧
    Reaches c (idle (exit :: todo) (body.pending c ++ own :: stack) afterBody)
      (idle todo stack (afterBody ++ c.exitTrace i.pt result (body.pending c ++ [own])))

theorem call_disciplined (c : Context) {tailcall : Point → Bool} {i : Instance} {result : Nat}
    {entryInner : List Invocation} {exitInner : Nat → List Invocation} {body : CallTree}
    (plain : tailcall i.pt = false) (ok : body.Consistent tailcall) :
    CallDisciplined c tailcall i result entryInner exitInner body := by
  intro todo stack log
  have tails := CallTree.pending_tailcall (c := c) ok
  refine ⟨entry_runs c i entryInner _ stack log,tree_runs c body ok _ _ _,tails,?_⟩
  refine exit_runs c i.pt result exitInner _ todo _ stack _ rfl ?_
  intro h member same
  rw [← same,tails h member] at plain
  cases plain

/-- Call-stack discipline of one thread: every instrumented call is disciplined,
and a whole run ends with the handles of the tail calls made outside all of
them and never pops an empty stack. -/
theorem payload_stack_discipline (c : Context) (tailcall : Point → Bool) (t : CallTree)
    (ok : t.Consistent tailcall) :
    (∀ (i : Instance) result entryInner exitInner body, tailcall i.pt = false → body.Consistent tailcall →
      CallDisciplined c tailcall i result entryInner exitInner body) ∧
    (∃ N, ∀ n ≥ N, (soloStep c)^[n] (false,.initial t.events) = idle [] (t.pending c) (t.trace c)) ∧
    ∀ n, ((soloStep c)^[n] (false,.initial t.events)).2.failed = none := by
  have whole := tree_runs c t ok [] [] []
  simp only [List.append_nil,List.nil_append] at whole
  exact ⟨fun _ _ _ _ _ plain okBody => call_disciplined c plain okBody,whole.settles,whole.not_failed⟩

def plainContext : Context := ⟨false,false,false,fun _ => true,fun _ => true⟩

/-- A call at point 1 whose callee ends in a tail call at point 2. -/
def chain : CallTree := .call ⟨0,1,some 1,10⟩ 99 [] (fun _ => []) (.tailCall ⟨1,2,some 2,20⟩ [] .ret) .ret

theorem payload_stack_discipline_chain :
    ∃ N, ∀ n ≥ N, ((soloStep plainContext)^[n] (false,.initial chain.events)).2.stack = [] := by
  obtain ⟨_,⟨N,done⟩,_⟩ := payload_stack_discipline plainContext (fun pt => pt == 2) chain
    ⟨rfl,⟨rfl,trivial⟩,trivial⟩
  exact ⟨N,fun n more => by rw [done n more]; rfl⟩

/-- A frame outside every instrumented call that ends in a tail call. -/
def outerTail : CallTree := .frame (.tailCall ⟨0,2,some 2,20⟩ [] .ret) .ret

/-- Its handle is on the stack for good. -/
theorem outerTail_stays : outerTail.Consistent (fun pt => pt == 2) ∧
    ¬∃ N, ∀ n ≥ N, ((soloStep plainContext)^[n] (false,.initial outerTail.events)).2.stack = [] := by
  have ok : outerTail.Consistent fun pt => pt == 2 := ⟨⟨rfl,trivial⟩,trivial⟩
  refine ⟨ok,?_⟩
  rintro ⟨N,empty⟩
  obtain ⟨M,done⟩ := (tree_runs plainContext outerTail ok [] [] []).settles
  have rest : ((soloStep plainContext)^[N + M] (idle (outerTail.events ++ []) [] [])).2.stack = [] :=
    empty (N + M) (by omega)
  rw [done (N + M) (by omega)] at rest
  exact absurd rest (by decide)

end SelfPropelled.Payload
