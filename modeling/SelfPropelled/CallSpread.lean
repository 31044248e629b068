import SelfPropelled.CallTrace

/-! Where propagation can come to: the points that are patched belong to functions that were
named to the agent, or called at a point of such a function. The spring block of a point may
be a block of any function nearby. -/

namespace SelfPropelled.Propagation

/-- A function an event or a new thread names, and one called at a call block of an
instrumented function that is itself reached. -/
inductive Spreads (code : Code) (named : Nat → Prop) (calls : List Call) : Nat → Prop
  | named {f} (known : named f) : Spreads code named calls f
  | call {g q c} (reached : Spreads code named calls g) (can : code.canInstrument g = true) (listed : q ∈ code.nextPoints g)
      (callee : (code.callee q).all code.canInstrument = true) (made : c ∈ calls) (here : code.block c.pt = code.block q) :
      Spreads code named calls c.callee

def Event.names : Event → Option Nat
  | .create _ routine => routine
  | .register _ f _ => some f
  | .start _ _ | .call _ _ _ _ | .move _ _ | .leave _ | .exit => none

/-- The batch of the patcher. -/
def Pc.batch : Pc Nat → List Nat
  | .checking _ _ commands => commands
  | .setting _ p _ commands => p :: commands
  | .idle | .spinning _ | .acquired _ | .running _ _ | .trying _ _ _ _ | .marking _ _ _ | .returned _ | .unlocking => []

/-- The point that `run` is at. -/
def Pc.tried : Pc Nat → List Nat
  | .trying _ p _ _ | .marking _ p _ => [p]
  | .idle | .spinning _ | .acquired _ | .checking _ _ _ | .setting _ _ _ _ | .running _ _ | .returned _ | .unlocking => []

/-- What `go` walks through are points of its function, and what is in the batch is one to instrument. -/
structure Own (prog : Program) (g : Go) (pc : Pc Nat) : Prop where
  points : ∀ p ∈ pc.rest ++ pc.batch, prog.canInstrument g.func = true ∧ p ∈ prog.nextPoints g.func
  asked : ∀ p ∈ pc.batch, interesting prog g p = true

def Home (code : Code) (named : Nat → Prop) (calls : List Call) (q : Nat) : Prop :=
  ∃ g, Spreads code named calls g ∧ code.canInstrument g = true ∧ q ∈ code.nextPoints g ∧
    (code.callee q).all code.canInstrument = true

structure Contained (code : Code) (named : Nat → Prop) (e : Execution) : Prop where
  go : ∀ t g, (e.threads.pc t).go = some g → Spreads code named e.calls g.func
  waiting : ∀ t c, (e.threads.pc t).waiting = some c → ∀ f, c.func = some f → Spreads code named e.calls f
  own : ∀ t g, (e.threads.pc t).go = some g → Own code.toProgram g (e.threads.pc t)
  commands : ∀ p ∈ e.threads.shared.commands, Home code named e.calls p
  tried : ∀ t, ∀ p ∈ (e.threads.pc t).tried, Home code named e.calls p
  patches : ∀ P ∈ e.threads.shared.patches, Home code named e.calls P.pt

section
variable {prog : Program} {caller : Caller} {o : Outcome} {sh sh' : Shared} {pc pc' : Pc Nat}

theorem own_out {g : Go} (rest : pc.rest = []) (batch : pc.batch = []) : Own prog g pc where
  points p listed := by
    rw [rest,batch] at listed
    cases listed
  asked p listed := by
    rw [batch] at listed
    cases listed

theorem own_enter (g : Go) : Own prog g (enter prog g) := by
  unfold enter
  split
  · rename_i can
    refine ⟨fun p listed => ⟨can,?_⟩,fun p listed => by cases listed⟩
    rwa [Pc.rest,Pc.batch,List.append_nil] at listed
  · exact own_out rfl rfl

theorem Own.fewer {g : Go} (own : Own prog g pc) (points : ∀ p ∈ pc'.rest ++ pc'.batch, p ∈ pc.rest ++ pc.batch)
    (asked : ∀ p ∈ pc'.batch, p ∈ pc.batch ∨ interesting prog g p = true) : Own prog g pc' :=
  ⟨fun p listed => own.points p (points p listed),fun p listed => (asked p listed).elim (own.asked p) id⟩

theorem Moves.own {g : Go} (moved : Moves prog caller o sh pc sh' pc') (own : ∀ h, pc.go = some h → Own prog h pc)
    (here : pc'.go = some g) : Own prog g pc' := by
  cases moved with
  | event | walk =>
    rw [go_enter] at here
    cases here
    exact own_enter _
  | stay | call | acquire | nothing | propagated | registered | unlock => cases here
  | commit | clear | pass | fail | tryWorkers | giveUp | mark => exact own_out rfl rfl
  | attempt => split <;> exact own_out rfl rfl
  | skip =>
    refine (own g here).fewer (fun p listed => ?_) fun p => .inl
    exact List.mem_cons_of_mem _ listed
  | take unmarked taken =>
    cases here
    refine (own g rfl).fewer (fun p listed => ?_) fun p listed => ?_
    · simpa [Pc.rest,Pc.batch,or_left_comm] using listed
    · rcases List.mem_cons.mp listed with rfl | before
      · exact .inr taken
      · exact .inl before
  | queue =>
    refine (own g here).fewer (fun p listed => ?_) fun p listed => ?_
    · simpa [Pc.rest,Pc.batch,or_left_comm,or_comm] using listed
    · exact .inl (by simpa [Pc.batch,or_comm] using listed)

theorem Moves.commands_from {p : Nat} (moved : Moves prog caller o sh pc sh' pc') (listed : p ∈ sh'.commands) :
    p ∈ sh.commands ∨ pc.go.isSome = true ∧ p ∈ pc.batch := by
  rcases moved.commands with ⟨same,_⟩ | ⟨g,batch,rfl,_,made⟩ | ⟨_,_,none⟩
  · exact .inl (same ▸ listed)
  · rw [made,Program.mem_commit] at listed
    exact listed.imp And.right fun new => ⟨rfl,new⟩
  · rw [none] at listed
    cases listed

theorem Moves.tried_from {p : Nat} (moved : Moves prog caller o sh pc sh' pc') (listed : p ∈ pc'.tried) :
    p ∈ pc.tried ∨ p ∈ sh.commands := by
  cases moved with
  | event | walk =>
    simp only [enter] at listed
    split at listed <;> cases listed
  | tryWorkers next =>
    cases List.mem_singleton.mp listed
    exact .inr (List.mem_of_getElem? next)
  | attempt =>
    split at listed <;> exact .inl listed
  | stay | call | acquire | nothing | commit | skip | take | queue | clear | pass | fail | giveUp | mark | propagated
  | registered | unlock => cases listed

theorem Moves.patches_from (moved : Moves prog caller o sh pc sh' pc') {P : Patch} (listed : P ∈ sh'.patches) :
    P ∈ sh.patches ∨ P.pt ∈ pc.tried := by
  cases moved with
  | attempt =>
    rcases List.mem_append.mp listed with old | new
    · exact .inl old
    · rw [(mem_patchesOf new).1]
      exact .inr List.mem_cons_self
  | _ => exact .inl listed

theorem all_of_interesting {g : Go} {p : Nat} (taken : interesting prog g p = true) :
    (prog.callee p).all prog.canInstrument = true := by
  unfold interesting at taken
  cases known : prog.callee p with
  | none => rfl
  | some f =>
    rw [known] at taken
    simp only [Bool.and_eq_true] at taken
    exact taken.1

end

section
variable {code : Code} {named : Nat → Prop} {e : Execution} {calls calls' : List Call}

theorem Spreads.mono {f : Nat} (reached : Spreads code named calls f) (later : ∀ c ∈ calls, c ∈ calls') :
    Spreads code named calls' f := by
  induction reached with
  | named known => exact .named known
  | call _ can listed callee made here ih => exact .call ih can listed callee (later _ made) here

theorem Home.mono {q : Nat} (home : Home code named calls q) (later : ∀ c ∈ calls, c ∈ calls') :
    Home code named calls' q := by
  obtain ⟨g,reached,rest⟩ := home
  exact ⟨g,reached.mono later,rest⟩

theorem Contained.log (contained : Contained code named e) (c : Call) : Contained code named (e.log c) := by
  have later : ∀ d ∈ e.calls, d ∈ (e.log c).calls := fun d listed => List.mem_append_left _ listed
  constructor
  · intro t g here
    exact (contained.go t g here).mono later
  · intro t d waits f known
    exact (contained.waiting t d waits f known).mono later
  · exact contained.own
  · intro p listed
    exact (contained.commands p listed).mono later
  · intro t p listed
    exact (contained.tried t p listed).mono later
  · intro P listed
    exact (contained.patches P listed).mono later

theorem Contained.setStack (contained : Contained code named e) (t : Nat) (frames : List Frame) :
    Contained code named (e.setStack t frames) :=
  ⟨contained.go,contained.waiting,contained.own,contained.commands,contained.tried,contained.patches⟩

theorem Contained.setEntering (contained : Contained code named e) (t : Nat) (entering : Option Frame) :
    Contained code named (e.setEntering t entering) :=
  ⟨contained.go,contained.waiting,contained.own,contained.commands,contained.tried,contained.patches⟩

/-- The points of a batch. -/
theorem Contained.home (contained : Contained code named e) {t p : Nat} (started : (e.threads.pc t).go.isSome = true)
    (listed : p ∈ (e.threads.pc t).batch) : Home code named e.calls p := by
  obtain ⟨g,here⟩ := Option.isSome_iff_exists.mp started
  have own := contained.own t g here
  obtain ⟨can,point⟩ := own.points p (List.mem_append_right _ listed)
  exact ⟨g.func,contained.go t g here,can,point,all_of_interesting (own.asked p listed)⟩

theorem Contained.act (contained : Contained code named e) (t : Nat) (caller : Caller) (o : Outcome)
    (known : ∀ f, caller.func = some f → Spreads code named e.calls f) : Contained code named (e.act code t caller o) := by
  rcases e.record.step_thread code.toProgram ⟨t,caller,o⟩ with ⟨same,_⟩ | ⟨sh,pc,moved,threads,_⟩
  · have same' : e.act code t caller o = e := by simp only [Execution.act,same]
    rw [same']
    exact contained
  have threads' : (e.act code t caller o).threads = e.threads.set t (sh,pc) := threads
  have moved' : Moves code.toProgram caller o e.threads.shared (e.threads.pc t) sh pc := moved
  constructor
  · intro u g here
    rw [threads'] at here
    rcases e.threads.set_pc t (sh,pc) u with same | ⟨rfl,same⟩ <;> rw [same] at here
    · exact contained.go u g here
    rcases moved'.go here with before | ⟨_,⟨_,_,rfl⟩ | ⟨c,waits,func,_⟩⟩
    · exact contained.go u g before
    · exact known _ rfl
    · exact contained.waiting u c waits _ func
  · intro u c waits f func
    rw [threads'] at waits
    rcases e.threads.set_pc t (sh,pc) u with same | ⟨rfl,same⟩ <;> rw [same] at waits
    · exact contained.waiting u c waits f func
    rcases moved'.waiting waits with before | ⟨_,rfl,_⟩
    · exact contained.waiting u c before f func
    · exact known f func
  · intro u g here
    rw [threads'] at here ⊢
    rcases e.threads.set_pc t (sh,pc) u with same | ⟨rfl,same⟩ <;> rw [same] at here ⊢
    · exact contained.own u g here
    · exact moved'.own (contained.own u) here
  · intro p listed
    rw [threads'] at listed
    exact (moved'.commands_from listed).elim (contained.commands p) fun new => contained.home new.1 new.2
  · intro u p listed
    rw [threads'] at listed
    rcases e.threads.set_pc t (sh,pc) u with same | ⟨rfl,same⟩ <;> rw [same] at listed
    · exact contained.tried u p listed
    · exact (moved'.tried_from listed).elim (contained.tried u p) (contained.commands p)
  · intro P listed
    rw [threads'] at listed
    exact (moved'.patches_from listed).elim (contained.patches P) (contained.tried t P.pt)

theorem Contained.call (contained : Contained code named e) {t p f : Nat} {skipped : Bool} {fr : Frame}
    (target : (code.callee p).all (· == f) = true) : Contained code named (e.callAt code t p f skipped fr) := by
  unfold Execution.callAt
  simp only
  cases found : lead code e.threads.shared (code.block p) with
  | none => exact (contained.log _).setStack t _
  | some P =>
    simp only
    split
    · exact (contained.log _).setStack t _
    apply Contained.setEntering
    apply (contained.log _).act
    intro g func
    cases func
    rw [lead_callee found target]
    have listed : P ∈ e.threads.shared.patches := (List.mem_filter.mp (List.mem_of_getLast? found)).1
    obtain ⟨h,reached,can,point,callee⟩ := (contained.log _).patches P listed
    exact .call reached can point callee (List.mem_append_right _ List.mem_cons_self) (lead_block found).symm

theorem Contained.step (contained : Contained code named e) {ev : Event} (known : ∀ f, ev.names = some f → named f) :
    Contained code named (e.step code ev) := by
  unfold Execution.step
  split
  · exact contained
  cases ev with
  | exit => exact ⟨contained.go,contained.waiting,contained.own,contained.commands,contained.tried,contained.patches⟩
  | move t o =>
    have moved := contained.act t (.beforeEntry none) o fun f func => by cases func
    simp only [Execution.moveAt]
    split
    · exact contained
    split
    · exact (moved.setEntering t none).setStack t _
    · exact moved
  | start t f =>
    simp only
    split
    · exact contained.setStack t _
    · exact contained
  | call t p f skipped =>
    simp only
    split
    · exact contained
    · split
      · rename_i ready
        simp only [Bool.and_eq_true] at ready
        exact contained.call ready.2
      · exact contained
  | leave t =>
    simp only
    split
    · exact contained.setStack t _
    · exact contained
  | create t routine =>
    simp only
    split
    · exact contained.act t _ _ fun f func => .named (known f func)
    · exact contained
  | register t f instCalls =>
    simp only
    split
    · exact contained.act t _ _ fun g func => .named (known g func)
    · exact contained

theorem Contained.initial : Contained code named .initial where
  go _ _ here := by cases here
  waiting _ _ waits := by cases waits
  own _ _ here := by cases here
  commands _ listed := by cases listed
  tried _ _ listed := by cases listed
  patches _ listed := by cases listed

end

/-- Nothing is patched that was not called for: in every run the call point of a patch, also of
one to a spring block, lies in a function that an event or a thread named or that was called
at a point of such a function, and both the function and the point's callee, if it is known,
are ones to instrument. -/
theorem patches_contained (code : Code) (events : List Event) :
    let e := Library.run (Execution.step code) .initial events
    ∀ P ∈ e.threads.shared.patches, Home code (fun f => ∃ ev ∈ events, ev.names = some f) e.calls P.pt := by
  have contained : Contained code (fun f => ∃ ev ∈ events, ev.names = some f) (Library.run (Execution.step code) .initial events) :=
    @Library.invariant_run Execution Event (Execution.step code) (fun _ ev => ev ∈ events)
      (Contained code fun f => ∃ ev ∈ events, ev.names = some f)
      (fun _ ev kept listed => kept.step fun f known => ⟨ev,listed,known⟩) _ _ .initial
      (Library.meets_of_forall _ fun _ listed => listed)
  exact contained.patches

theorem patches_contained_tracedRun :
    Home twoFunctions (fun f => ∃ ev ∈ tracedRun, ev.names = some f)
      (Library.run (Execution.step twoFunctions) .initial tracedRun).calls 0 :=
  patches_contained twoFunctions tracedRun ⟨0,0,1⟩ (by decide)

end SelfPropelled.Propagation
