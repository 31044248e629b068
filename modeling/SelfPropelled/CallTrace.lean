import SelfPropelled.Coverage

/-! The program's threads over propagation: a call at a patched point goes through the
payload, which propels into the callee before the callee is entered. -/

namespace SelfPropelled.Propagation

/-- Points of one block are one call. -/
structure Code extends Program where
  same : ∀ p q, block p = block q → callee p = callee q

/-- A function that runs, the point it was called at, and whether its own call points were
walked through before it was entered. -/
structure Frame where
  func : Nat
  pt : Option Nat
  traced : Bool

structure Call where
  caller : Frame
  pt : Nat
  callee : Nat
  patched : Bool
  abandoned : Bool

/-- The threads with the functions they run, the callee each is about to enter, and the calls made. -/
structure Execution where
  record : Recorded
  entering : Nat → Option Frame
  stack : Nat → List Frame
  calls : List Call

def Execution.initial : Execution := ⟨.initial,fun _ => none,fun _ => [],[]⟩

/-- A thread begins in a function, calls one at a point, moves on in the payload, returns,
creates a thread, or registers an event; or `exit` is entered. A wrapper is `skipped` when
another thread is inside one or the callee is not found. -/
inductive Event
  | start (t f : Nat)
  | call (t p f : Nat) (skipped : Bool)
  | move (t : Nat) (outcome : Outcome)
  | leave (t : Nat)
  | create (t : Nat) (routine : Option Nat)
  | register (t f : Nat) (instCalls : Option (Nat → Bool))
  | exit

def Pc.isIdle : Pc Nat → Bool
  | .idle => true
  | _ => false

namespace Execution

def threads (e : Execution) : State Nat := e.record.process.threads

def setStack (e : Execution) (t : Nat) (frames : List Frame) : Execution :=
  {e with stack := Function.update e.stack t frames}

def setEntering (e : Execution) (t : Nat) (entering : Option Frame) : Execution :=
  {e with entering := Function.update e.entering t entering}

def push (e : Execution) (t : Nat) (fr : Frame) : Execution := e.setStack t (fr :: e.stack t)

def log (e : Execution) (c : Call) : Execution := {e with calls := e.calls ++ [c]}

end Execution

section
variable (code : Code)

/-- The patch that a call in the block runs into. -/
def lead (sh : Shared) (b : Nat) : Option Patch :=
  (sh.patches.filter fun P => P.block == b && code.block P.pt == b).getLast?

def Execution.act (e : Execution) (t : Nat) (caller : Caller) (o : Outcome) : Execution :=
  {e with record := e.record.step code.toProgram (.thread ⟨t,caller,o⟩)}

/-- The wrapper of a call: `Propel` is given the point the patch was made for. -/
def Execution.callAt (e : Execution) (t p f : Nat) (skipped : Bool) (fr : Frame) : Execution :=
  let made := e.log ⟨fr,p,f,(lead code e.threads.shared (code.block p)).isSome,e.record.abandoned.contains p⟩
  match lead code e.threads.shared (code.block p) with
  | none => made.push t ⟨f,some p,false⟩
  | some P =>
    if skipped || !e.record.process.inInstrumentation then made.push t ⟨f,some p,false⟩
    else
      (made.act code t (.propel (some ((code.callee P.pt).getD f))) ⟨false,none,false⟩).setEntering t (some ⟨f,some p,true⟩)

/-- One step in the payload, and the callee is entered when it has ended. -/
def Execution.moveAt (e : Execution) (t : Nat) (o : Outcome) : Execution :=
  let moved := e.act code t (.beforeEntry none) o
  if (moved.threads.pc t).isIdle then (moved.setEntering t none).setStack t ((e.entering t).toList ++ e.stack t) else moved

def Execution.step (e : Execution) (ev : Event) : Execution :=
  if e.threads.shared.aborted then e
  else
    match ev with
    | .exit => {e with record := e.record.step code.toProgram .toggleOff}
    | .move t o => if (e.threads.pc t).isIdle then e else e.moveAt code t o
    | .start t f =>
      if (e.threads.pc t).isIdle && (e.stack t).isEmpty then e.push t ⟨f,none,e.record.walked.contains f⟩ else e
    | .call t p f skipped =>
      match e.stack t with
      | [] => e
      | fr :: _ =>
        if (e.threads.pc t).isIdle && (code.nextPoints fr.func).contains p && (code.callee p).all (· == f) then
          e.callAt code t p f skipped fr
        else e
    | .leave t => if (e.threads.pc t).isIdle then e.setStack t (e.stack t).tail else e
    | .create t routine => if (e.threads.pc t).isIdle then e.act code t (.beforeEntry routine) ⟨false,none,false⟩ else e
    | .register t f instCalls =>
      if (e.threads.pc t).isIdle then e.act code t (.registerEvent f instCalls) ⟨false,none,false⟩ else e

end

/-- The thread is on its way through `Propel` into the function, and has not left it before
the function is marked. -/
def Toward (sh : Shared) (f : Nat) : Pc Nat → Prop
  | .spinning caller | .acquired caller => caller = .propel (some f)
  | .checking g _ _ | .setting g _ _ _ | .running g _ | .trying g _ _ _ | .marking g _ _ | .returned g =>
    g.func = f ∧ g.locked = true
  | .unlocking => sh.propagated f = true
  | .idle => False

/-- What an attempt must be like: see `Outcome.Sure`. -/
def Event.Sure : Event → Prop
  | .move _ o => o.Sure
  | _ => True

/-- No batch is committed while another thread is in `run`, unless both are inside the lock. -/
def Event.Solo (s : State Nat) : Event → Prop
  | .move t _ => Propagation.Solo s t
  | .start _ _ | .call _ _ _ _ | .leave _ | .create _ _ | .register _ _ _ | .exit => True

structure Traced (code : Code) (e : Execution) : Prop where
  exclusive : Exclusive e.threads
  covered : Covered code.toProgram e.record
  written : Written code.toProgram e.threads
  toward : ∀ t fr, e.entering t = some fr → Toward e.threads.shared fr.func (e.threads.pc t)
  stack : ∀ t, ∀ fr ∈ e.stack t, fr.traced = true → fr.func ∈ e.record.walked
  calls : ∀ c ∈ e.calls, c.caller.traced = true → code.canInstrument c.caller.func = true →
    worth code.toProgram c.pt = true → c.patched = true ∨ c.abandoned = true

section
variable {prog : Program} {caller : Caller} {o : Outcome} {sh sh' : Shared} {pc pc' : Pc Nat}

theorem Moves.keeps_propagated {f : Nat} (moved : Moves prog caller o sh pc sh' pc') (done : sh.propagated f = true) :
    sh'.propagated f = true := by
  cases moved with
  | propagated => simp [done]
  | _ => exact done

theorem toward_enter {f : Nat} {instCalls : Option (Nat → Bool)} : Toward sh f (enter prog ⟨true,f,instCalls⟩) := by
  unfold enter
  split <;> exact ⟨rfl,rfl⟩

theorem Moves.toward {f : Nat} (moved : Moves prog caller o sh pc sh' pc') (toward : Toward sh f pc) :
    Toward sh' f pc' ∨ pc' = .idle ∧ sh'.propagated f = true := by
  cases moved with
  | call | event => exact toward.elim
  | nothing none =>
    left
    rcases none with rfl | rfl | ⟨g,rfl,done⟩
    · cases toward
    · cases toward
    · cases toward
      exact done
  | walk named =>
    left
    rcases named with ⟨rfl,rfl,_⟩ | ⟨rfl,rfl⟩ | rfl
    · cases toward
      exact toward_enter
    · cases toward
    · cases toward
  | attempt =>
    left
    split <;> exact toward
  | propagated locked =>
    left
    simp [Toward,toward.1]
  | registered free => exact absurd (free.symm.trans toward.2) (by decide)
  | unlock => exact .inr ⟨rfl,toward⟩
  | stay | acquire | commit | skip | take | queue | clear | pass | fail | tryWorkers | giveUp | mark => exact .inl toward

theorem Toward.later {f : Nat} (toward : Toward sh f pc) (later : ∀ f, sh.propagated f = true → sh'.propagated f = true) :
    Toward sh' f pc := by
  cases pc with
  | unlocking => exact later f toward
  | _ => exact toward

end

section
variable {code : Code} {e : Execution}

/-- What a step of one thread in the payload keeps. -/
structure Acted (code : Code) (e e' : Execution) (t : Nat) : Prop where
  exclusive : Exclusive e'.threads
  covered : Covered code.toProgram e'.record
  written : Written code.toProgram e'.threads
  walked : ∀ f ∈ e.record.walked, f ∈ e'.record.walked
  others : ∀ u, u ≠ t → e'.threads.pc u = e.threads.pc u
  propagated : ∀ f, e.threads.shared.propagated f = true → e'.threads.shared.propagated f = true
  own : ∀ f, Toward e.threads.shared f (e.threads.pc t) → Toward e'.threads.shared f (e'.threads.pc t) ∨
    e'.threads.pc t = .idle ∧ e'.threads.shared.propagated f = true

theorem solo_of_idle {s : State Nat} {t : Nat} (idle : s.pc t = .idle) : Solo s t := by
  intro g batch here
  cases idle.symm.trans here

theorem Traced.act (traced : Traced code e) (t : Nat) (caller : Caller) {o : Outcome} (sure : o.Sure) (solo : Solo e.threads t) :
    Acted code e (e.act code t caller o) t := by
  have covered : Covered code.toProgram (e.act code t caller o).record :=
    traced.covered.step traced.exclusive (.thread ⟨t,caller,o⟩) solo
  rcases e.record.step_thread code.toProgram ⟨t,caller,o⟩ with ⟨same,_⟩ | ⟨sh,pc,moved,threads,_,walked⟩
  · have same' : e.act code t caller o = e := by simp only [Execution.act,same]
    rw [same']
    exact ⟨traced.exclusive,traced.covered,traced.written,fun _ => id,fun _ _ => rfl,fun _ => id,fun _ => .inl⟩
  have threads' : (e.act code t caller o).threads = e.threads.set t (sh,pc) := threads
  refine ⟨?_,covered,?_,?_,?_,?_,?_⟩
  · rw [threads']
    exact traced.exclusive.moves solo moved
  · rw [threads']
    exact moved.written sure traced.written
  · intro f listed
    have walked' : (e.act code t caller o).record.walked = _ := walked
    rw [walked']
    exact List.mem_append_left _ listed
  · intro u other
    rw [threads']
    exact State.set_other _ other _
  · intro f done
    rw [threads']
    exact moved.keeps_propagated done
  · intro f toward
    rw [threads',State.set_self]
    exact moved.toward toward

theorem lead_isSome {sh : Shared} {b : Nat} (written : ∃ P ∈ sh.patches, P.block = b ∧ code.block P.pt = b) :
    (lead code sh b).isSome = true := by
  obtain ⟨P,listed,here,home⟩ := written
  have kept : P ∈ sh.patches.filter fun P => P.block == b && code.block P.pt == b := by simp [listed,here,home]
  unfold lead
  rw [List.getLast?_isSome]
  exact List.ne_nil_of_mem kept

theorem lead_block {sh : Shared} {b : Nat} {P : Patch} (found : lead code sh b = some P) : code.block P.pt = b := by
  have kept := List.mem_of_getLast? found
  simp only [List.mem_filter,Bool.and_eq_true,beq_iff_eq] at kept
  exact kept.2.2

theorem lead_callee {sh : Shared} {p f : Nat} {P : Patch} (found : lead code sh (code.block p) = some P)
    (target : (code.callee p).all (· == f) = true) : (code.callee P.pt).getD f = f := by
  rw [code.same P.pt p (lead_block found)]
  cases known : code.callee p with
  | none => rfl
  | some g =>
    rw [known] at target
    simpa using target

theorem isIdle_iff {pc : Pc Nat} : pc.isIdle = true ↔ pc = .idle := by
  cases pc <;> simp [Pc.isIdle]

theorem Traced.setStack (traced : Traced code e) (t : Nat) {frames : List Frame}
    (walked : ∀ fr ∈ frames, fr.traced = true → fr.func ∈ e.record.walked) : Traced code (e.setStack t frames) := by
  refine ⟨traced.exclusive,traced.covered,traced.written,traced.toward,fun u fr listed => ?_,traced.calls⟩
  unfold Execution.setStack at listed
  by_cases own : u = t
  · subst own
    simp only [Function.update_self] at listed
    exact walked fr listed
  · simp only [Function.update_of_ne own] at listed
    exact traced.stack u fr listed

theorem Traced.push (traced : Traced code e) (t : Nat) {fr : Frame}
    (walked : fr.traced = true → fr.func ∈ e.record.walked) : Traced code (e.push t fr) := by
  apply traced.setStack t
  intro fr' listed
  rcases List.mem_cons.mp listed with rfl | below
  · exact walked
  · exact traced.stack t fr' below

/-- A thread that is idle, or comes to be, is about to enter nothing else. -/
theorem Traced.none_entering (traced : Traced code e) {t : Nat} (idle : e.threads.pc t = .idle) :
    e.entering t = none := by
  cases entering : e.entering t with
  | none => rfl
  | some fr =>
    have toward := traced.toward t fr entering
    rw [idle] at toward
    exact toward.elim

theorem Traced.act_entering (traced : Traced code e) (t : Nat) (caller : Caller) {o : Outcome} (sure : o.Sure) (solo : Solo e.threads t)
    {entering : Option Frame} (toward : ∀ fr, entering = some fr →
      Toward (e.act code t caller o).threads.shared fr.func ((e.act code t caller o).threads.pc t)) :
    Traced code ((e.act code t caller o).setEntering t entering) := by
  have acted := traced.act t caller sure solo
  refine ⟨acted.exclusive,acted.covered,acted.written,fun u fr here => ?_,fun u fr listed done => acted.walked _ (traced.stack u fr listed done),
    traced.calls⟩
  unfold Execution.setEntering at here
  by_cases own : u = t
  · subst own
    simp only [Function.update_self] at here
    exact toward fr here
  · simp only [Function.update_of_ne own] at here
    have other : Toward (e.act code t caller o).threads.shared fr.func ((e.act code t caller o).threads.pc u) := by
      rw [acted.others u own]
      exact (traced.toward u fr here).later acted.propagated
    exact other

theorem setEntering_same (e : Execution) (t : Nat) : e.setEntering t (e.entering t) = e := by
  simp [Execution.setEntering]

theorem Traced.act_idle (traced : Traced code e) {t : Nat} (idle : e.threads.pc t = .idle) (caller : Caller) {o : Outcome}
    (sure : o.Sure) : Traced code (e.act code t caller o) := by
  have same := setEntering_same (e.act code t caller o) t
  rw [← same]
  apply traced.act_entering t caller sure (solo_of_idle idle)
  intro fr entering
  cases (traced.none_entering idle).symm.trans entering

theorem Traced.move (traced : Traced code e) (t : Nat) {o : Outcome} (sure : o.Sure) (solo : Solo e.threads t) :
    Traced code (e.moveAt code t o) := by
  have acted := traced.act t (.beforeEntry none) sure solo
  unfold Execution.moveAt
  simp only
  split
  · rename_i idle
    have left : Traced code ((e.act code t (.beforeEntry none) o).setEntering t none) :=
      traced.act_entering t (.beforeEntry none) sure solo fun fr none => by cases none
    apply left.setStack t
    intro fr listed done
    rcases List.mem_append.mp listed with new | below
    · have reached := acted.own fr.func (traced.toward t fr (Option.mem_toList.mp new))
      rw [isIdle_iff.mp idle] at reached
      exact acted.covered.propagated _ (reached.resolve_left id).2
    · exact acted.walked _ (traced.stack t fr below done)
  · rename_i busy
    rw [← setEntering_same (e.act code t (.beforeEntry none) o) t]
    apply traced.act_entering t (.beforeEntry none) sure solo
    intro fr entering
    exact (acted.own fr.func (traced.toward t fr entering)).resolve_right fun left => busy (isIdle_iff.mpr left.1)

theorem Traced.log (traced : Traced code e) {t p f : Nat} {fr : Frame} (running : fr ∈ e.stack t)
    (listed : p ∈ code.nextPoints fr.func) : Traced code
      (e.log ⟨fr,p,f,(lead code e.threads.shared (code.block p)).isSome,e.record.abandoned.contains p⟩) := by
  refine ⟨traced.exclusive,traced.covered,traced.written,traced.toward,traced.stack,fun c logged done can good => ?_⟩
  rcases List.mem_append.mp logged with old | new
  · exact traced.calls c old done can good
  obtain rfl := List.mem_singleton.mp new
  rcases traced.covered.walked _ (traced.stack t fr running done) can p listed good with marked | given
  · exact .inl (lead_isSome (traced.written.marked _ marked))
  · exact .inr (by simpa using given)

theorem act_propel {e : Execution} {t : Nat} (alive : e.threads.shared.aborted = false) (idle : e.threads.pc t = .idle)
    (on : e.record.process.inInstrumentation = true) (callee : Option Nat) (o : Outcome) :
    (e.act code t (.propel callee) o).threads = e.threads.set t (e.threads.shared,.spinning (.propel callee)) := by
  have alive' : e.record.process.threads.shared.aborted = false := alive
  have idle' : e.record.process.threads.pc t = .idle := idle
  simp [Execution.act,Execution.threads,Recorded.step,alive',Process.step,Process.refuses,on,step_eq alive',idle',move]

theorem Traced.call (traced : Traced code e) (alive : e.threads.shared.aborted = false) {t p f : Nat} {skipped : Bool} {fr : Frame}
    (idle : e.threads.pc t = .idle) (running : fr ∈ e.stack t) (listed : p ∈ code.nextPoints fr.func)
    (target : (code.callee p).all (· == f) = true) : Traced code (e.callAt code t p f skipped fr) := by
  have made := traced.log (f := f) running listed
  unfold Execution.callAt
  simp only
  cases found : lead code e.threads.shared (code.block p) with
  | none =>
    rw [found] at made
    exact made.push t fun done => by cases done
  | some P =>
    rw [found] at made
    simp only
    split
    · exact made.push t fun done => by cases done
    rename_i on
    simp only [Bool.or_eq_true,Bool.not_eq_true',not_or,Bool.not_eq_false] at on
    have named := lead_callee found target
    refine made.act_entering t _ (fun ok => by cases ok) (solo_of_idle idle) ?_
    intro fr' entering
    cases entering
    rw [act_propel (e := e.log _) alive idle on.2,State.set_self,named]
    rfl

theorem Traced.step (traced : Traced code e) (ev : Event) (sure : ev.Sure) (solo : ev.Solo e.threads) : Traced code (e.step code ev) := by
  unfold Execution.step
  cases alive : e.threads.shared.aborted with
  | true => exact traced
  | false =>
    rw [if_neg (by decide)]
    cases ev with
    | exit => exact ⟨traced.exclusive,traced.covered.step traced.exclusive .toggleOff trivial,traced.written,traced.toward,traced.stack,traced.calls⟩
    | move t o =>
      simp only
      split
      · exact traced
      · exact traced.move t sure solo
    | start t f =>
      simp only
      split
      · exact traced.push t fun done => by simpa using done
      · exact traced
    | call t p f skipped =>
      simp only
      split
      · exact traced
      · rename_i fr below here
        split
        · rename_i ready
          simp only [Bool.and_eq_true,List.contains_iff_mem] at ready
          exact traced.call alive (isIdle_iff.mp ready.1.1) (by rw [here]; exact List.mem_cons_self) ready.1.2 ready.2
        · exact traced
    | leave t =>
      simp only
      split
      · exact traced.setStack t fun fr listed => traced.stack t fr (List.mem_of_mem_tail listed)
      · exact traced
    | create t routine | register t f instCalls =>
      simp only
      split
      · rename_i idle
        exact traced.act_idle (isIdle_iff.mp idle) _ fun ok => by cases ok
      · exact traced

theorem Traced.initial : Traced code .initial where
  exclusive := .initial
  covered := .initial
  written := .initial
  toward _ _ entering := by cases entering
  stack _ _ listed := by cases listed
  calls _ listed := by cases listed

end

theorem Traced.run (code : Code) (events : List Event) (sure : ∀ ev ∈ events, ev.Sure)
    (solo : Library.Meets (Execution.step code) (fun e ev => ev.Solo e.threads) .initial events) :
    Traced code (Library.run (Execution.step code) .initial events) :=
  @Library.invariant_run Execution Event (Execution.step code) (fun e ev => ev.Sure ∧ ev.Solo e.threads) (Traced code)
    (fun _ ev kept given => kept.step ev given.1 given.2) _ _ .initial (Library.Meets.and _ _ (Library.meets_of_forall _ sure) solo)

/-- The attempts are those of the workers. -/
def Event.Made : Event → Prop
  | .move _ o => o.Made
  | .start _ _ | .call _ _ _ _ | .leave _ | .create _ _ | .register _ _ _ | .exit => True

def Event.tid : Event → Option Nat
  | .start t _ | .call t _ _ _ | .move t _ | .leave t | .create t _ | .register t _ _ => some t
  | .exit => none

section
variable {code : Code} {e : Execution}

theorem act_others {t u : Nat} (other : u ≠ t) (caller : Caller) (o : Outcome) :
    (e.act code t caller o).threads.pc u = e.threads.pc u := by
  rcases e.record.step_thread code.toProgram ⟨t,caller,o⟩ with ⟨same,_⟩ | ⟨sh,pc,_,threads,_⟩
  · have same' : e.act code t caller o = e := by simp only [Execution.act,same]
    rw [same']
  · have threads' : (e.act code t caller o).threads = e.threads.set t (sh,pc) := threads
    rw [threads']
    exact State.set_other _ other _

theorem step_others {ev : Event} {u : Nat} (other : ev.tid ≠ some u) : (e.step code ev).threads.pc u = e.threads.pc u := by
  unfold Execution.step
  split
  · rfl
  cases ev with
  | exit => rfl
  | move t o =>
    have apart : u ≠ t := fun own => other (congrArg some own.symm)
    simp only
    split
    · rfl
    · simp only [Execution.moveAt]
      split
      · exact act_others apart _ _
      · exact act_others apart _ _
  | start t f | leave t =>
    simp only
    split <;> rfl
  | call t p f skipped =>
    have apart : u ≠ t := fun own => other (congrArg some own.symm)
    simp only
    split
    · rfl
    · split
      · simp only [Execution.callAt]
        split
        · rfl
        · split
          · rfl
          · exact act_others apart _ _
      · rfl
  | create t routine | register t f instCalls =>
    have apart : u ≠ t := fun own => other (congrArg some own.symm)
    simp only
    split
    · exact act_others apart _ _
    · rfl

theorem solo_of_single {t : Nat} {events : List Event} (idle : ∀ u, u ≠ t → e.threads.pc u = .idle)
    (mine : ∀ ev ∈ events, ev.tid = some t) : Library.Meets (Execution.step code) (fun e ev => ev.Solo e.threads) e events := by
  induction events generalizing e with
  | nil => trivial
  | cons ev rest ih =>
    have own := mine ev List.mem_cons_self
    refine ⟨?_,ih (fun u other => ?_) fun ev' listed => mine ev' (List.mem_cons_of_mem _ listed)⟩
    · cases ev with
      | move t' o =>
        intro g batch _ u other running
        obtain rfl : t' = t := Option.some.inj own
        rw [idle u other] at running
        cases running
      | _ => trivial
    · rw [step_others (fun same => other (Option.some.inj (same.symm.trans own)))]
      exact idle u other

end

def twoFunctions : Code := {oneCall with same := fun _ _ _ => rfl}

/-- An event is registered for function 0, which a thread then begins in and calls 1 from. -/
def tracedRun : List Event :=
  .register 0 0 none :: (List.replicate 8 (.move 0 ⟨true,none,true⟩) ++
    [.start 0 0,.call 0 0 1 false] ++ List.replicate 6 (.move 0 ⟨true,none,true⟩))

theorem mem_tracedRun {ev : Event} (listed : ev ∈ tracedRun) : ev.tid = some 0 ∧ ev.Made := by
  simp only [tracedRun,List.mem_cons,List.mem_append,List.mem_replicate,List.not_mem_nil,or_false] at listed
  rcases listed with rfl | (⟨_,rfl⟩ | rfl | rfl) | ⟨_,rfl⟩
  · exact ⟨rfl,trivial⟩
  · exact ⟨rfl,made_nearCall⟩
  · exact ⟨rfl,trivial⟩
  · exact ⟨rfl,trivial⟩
  · exact ⟨rfl,made_nearCall⟩

theorem solo_tracedRun : Library.Meets (Execution.step twoFunctions) (fun e ev => ev.Solo e.threads) .initial tracedRun :=
  @solo_of_single twoFunctions .initial 0 tracedRun (fun _ _ => rfl) fun _ listed => (mem_tracedRun listed).1

/-- No wrapper is skipped, every attempt succeeds, and the program does not exit. -/
def Event.Steady : Event → Prop
  | .call _ _ _ skipped => skipped = false
  | .move _ o => o.ok = true ∧ o.wrote = true
  | .exit => False
  | .start _ _ | .leave _ | .create _ _ | .register _ _ _ => True

def Linked (code : Code) (fr caller : Frame) : Prop :=
  caller.traced = true → code.canInstrument caller.func = true → (∀ p, fr.pt = some p → worth code.toProgram p = true) →
    fr.traced = true

/-- The process is on, and nothing was or is to be given up. -/
structure Calm (e : Execution) : Prop where
  on : e.record.process.inInstrumentation = true
  kept : e.record.abandoned = []
  tried : ∀ t, abandonedBy (e.threads.pc t) = []

structure Unbroken (code : Code) (e : Execution) : Prop where
  traced : Traced code e
  calm : Calm e
  entering : ∀ t fr, e.entering t = some fr → fr.traced = true
  linked : ∀ t, (e.stack t).IsChain (Linked code)

section
variable {code : Code} {e : Execution}

theorem Moves.tried {prog : Program} {caller : Caller} {o : Outcome} {sh sh' : Shared} {pc pc' : Pc Nat} (moved : Moves prog caller o sh pc sh' pc')
    (workers : 0 < prog.workers) (succeeds : pc = .idle ∨ o.ok = true) (tried : abandonedBy pc = []) : abandonedBy pc' = [] := by
  have entered : ∀ g, abandonedBy (enter prog g) = [] := by
    intro g
    unfold enter
    split <;> rfl
  cases moved with
  | event | walk => exact entered _
  | tryWorkers =>
    obtain ⟨n,some⟩ := Nat.exists_eq_succ_of_ne_zero workers.ne'
    rw [some]
    rfl
  | attempt =>
    rw [succeeds.resolve_left (by simp)]
    rfl
  | stay => exact tried
  | _ => rfl

theorem Calm.act (calm : Calm e) (workers : 0 < code.workers) (t : Nat) (caller : Caller) {o : Outcome}
    (succeeds : e.threads.pc t = .idle ∨ o.ok = true) : Calm (e.act code t caller o) := by
  have on : (e.act code t caller o).record.process.inInstrumentation = true := by
    simp only [Execution.act,Recorded.step,Process.step]
    split
    · exact calm.on
    · simp only
      split <;> exact calm.on
  rcases e.record.step_thread code.toProgram ⟨t,caller,o⟩ with ⟨same,_⟩ | ⟨sh,pc,moved,threads,abandoned,_⟩
  · have same' : e.act code t caller o = e := by simp only [Execution.act,same]
    rw [same']
    exact calm
  have threads' : (e.act code t caller o).threads = e.threads.set t (sh,pc) := threads
  have abandoned' : (e.act code t caller o).record.abandoned = e.record.abandoned ++ abandonedBy (e.threads.pc t) := abandoned
  refine ⟨on,by rw [abandoned',calm.kept,calm.tried]; rfl,fun u => ?_⟩
  rw [threads']
  rcases e.threads.set_pc t (sh,pc) u with same | ⟨rfl,same⟩ <;> rw [same]
  · exact calm.tried u
  · exact moved.tried workers succeeds (calm.tried u)

theorem stack_setStack (e : Execution) (t : Nat) (frames : List Frame) (u : Nat) :
    (e.setStack t frames).stack u = if u = t then frames else e.stack u := by
  by_cases own : u = t <;> simp [Execution.setStack,own]

theorem entering_setEntering (e : Execution) (t : Nat) (entering : Option Frame) (u : Nat) :
    (e.setEntering t entering).entering u = if u = t then entering else e.entering u := by
  by_cases own : u = t <;> simp [Execution.setEntering,own]

theorem linked_setStack {t : Nat} {frames : List Frame} (linked : ∀ u, (e.stack u).IsChain (Linked code))
    (own : frames.IsChain (Linked code)) (u : Nat) : ((e.setStack t frames).stack u).IsChain (Linked code) := by
  rw [stack_setStack]
  split
  · exact own
  · exact linked u

theorem Unbroken.act (unbroken : Unbroken code e) (workers : 0 < code.workers) {t : Nat} (idle : e.threads.pc t = .idle)
    (caller : Caller) : Unbroken code (e.act code t caller ⟨false,none,false⟩) :=
  ⟨unbroken.traced.act_idle idle caller (fun ok => by cases ok),unbroken.calm.act workers t caller (.inl idle),
    unbroken.entering,unbroken.linked⟩

theorem Unbroken.move (unbroken : Unbroken code e) (workers : 0 < code.workers) (t : Nat) {o : Outcome}
    (ok : o.ok = true) (wrote : o.wrote = true) (solo : Solo e.threads t) : Unbroken code (e.moveAt code t o) := by
  have traced := unbroken.traced.move t (fun _ => wrote : o.Sure) solo
  have calm := unbroken.calm.act workers t (.beforeEntry none) (.inr ok)
  unfold Execution.moveAt at traced ⊢
  simp only at traced ⊢
  split at traced
  · rename_i idle
    rw [if_pos idle]
    refine ⟨traced,⟨calm.on,calm.kept,calm.tried⟩,fun u fr here => ?_,?_⟩
    · have here' : ((e.act code t (.beforeEntry none) o).setEntering t none).entering u = some fr := here
      rw [entering_setEntering] at here'
      split at here'
      · cases here'
      · exact unbroken.entering u fr here'
    · apply linked_setStack unbroken.linked
      cases entering : e.entering t with
      | none => exact unbroken.linked t
      | some fr =>
        apply List.isChain_cons.mpr
        exact ⟨fun _ _ _ _ _ => unbroken.entering t fr entering,unbroken.linked t⟩
  · rename_i busy
    rw [if_neg busy]
    exact ⟨traced,calm,unbroken.entering,unbroken.linked⟩

theorem Unbroken.call (unbroken : Unbroken code e) (alive : e.threads.shared.aborted = false) (workers : 0 < code.workers)
    {t p f : Nat} {fr : Frame} {below : List Frame} (idle : e.threads.pc t = .idle) (here : e.stack t = fr :: below)
    (listed : p ∈ code.nextPoints fr.func) (target : (code.callee p).all (· == f) = true) :
    Unbroken code (e.callAt code t p f false fr) := by
  have running : fr ∈ e.stack t := by
    rw [here]
    exact List.mem_cons_self
  have traced : Traced code (e.callAt code t p f false fr) := unbroken.traced.call alive idle running listed target
  have logged := (unbroken.traced.log (f := f) running listed).calls _ (List.mem_append_right _ List.mem_cons_self)
  unfold Execution.callAt at traced ⊢
  simp only at traced ⊢
  cases found : lead code e.threads.shared (code.block p) with
  | none =>
    rw [found] at traced logged
    refine ⟨traced,⟨unbroken.calm.on,unbroken.calm.kept,unbroken.calm.tried⟩,unbroken.entering,?_⟩
    apply linked_setStack unbroken.linked
    have below' : ((e.log ⟨fr,p,f,false,e.record.abandoned.contains p⟩).stack t) = fr :: below := here
    simp only [Option.isSome_none] at below' ⊢
    rw [below',List.isChain_cons_cons]
    refine ⟨fun done can good => ?_,by rw [← here]; exact unbroken.linked t⟩
    have given := logged done can (good p rfl)
    simp [unbroken.calm.kept] at given
  | some P =>
    rw [found] at traced
    have on : (false || !e.record.process.inInstrumentation) = false := by rw [unbroken.calm.on]; rfl
    simp only [on,Bool.false_eq_true,if_false] at traced ⊢
    have made : Calm (e.log ⟨fr,p,f,(some P).isSome,e.record.abandoned.contains p⟩) :=
      ⟨unbroken.calm.on,unbroken.calm.kept,unbroken.calm.tried⟩
    have calm := made.act workers t (.propel (some ((code.callee P.pt).getD f))) (o := ⟨false,none,false⟩) (.inl idle)
    refine ⟨traced,⟨calm.on,calm.kept,calm.tried⟩,fun u fr' entering => ?_,unbroken.linked⟩
    rw [entering_setEntering] at entering
    split at entering
    · cases entering
      rfl
    · exact unbroken.entering u fr' entering

theorem Unbroken.step (unbroken : Unbroken code e) (workers : 0 < code.workers) {ev : Event} (steady : ev.Steady)
    (solo : ev.Solo e.threads) : Unbroken code (e.step code ev) := by
  unfold Execution.step
  cases alive : e.threads.shared.aborted with
  | true => exact unbroken
  | false =>
    rw [if_neg (by decide)]
    cases ev with
    | exit => exact steady.elim
    | move t o =>
      simp only
      split
      · exact unbroken
      · exact unbroken.move workers t steady.1 steady.2 solo
    | start t f =>
      simp only
      split
      · rename_i ready
        simp only [Bool.and_eq_true,List.isEmpty_iff] at ready
        refine ⟨unbroken.traced.push t fun done => by simpa using done,
          ⟨unbroken.calm.on,unbroken.calm.kept,unbroken.calm.tried⟩,unbroken.entering,?_⟩
        apply linked_setStack unbroken.linked
        rw [ready.2]
        exact List.isChain_singleton _
      · exact unbroken
    | call t p f skipped =>
      obtain rfl : skipped = false := steady
      simp only
      split
      · exact unbroken
      · rename_i fr below here
        split
        · rename_i ready
          simp only [Bool.and_eq_true,List.contains_iff_mem] at ready
          exact unbroken.call alive workers (isIdle_iff.mp ready.1.1) here ready.1.2 ready.2
        · exact unbroken
    | leave t =>
      simp only
      split
      · refine ⟨unbroken.traced.setStack t fun fr listed => unbroken.traced.stack t fr (List.mem_of_mem_tail listed),
          ⟨unbroken.calm.on,unbroken.calm.kept,unbroken.calm.tried⟩,unbroken.entering,?_⟩
        exact linked_setStack unbroken.linked (unbroken.linked t).tail
      · exact unbroken
    | create t routine | register t f instCalls =>
      simp only
      split
      · rename_i idle
        exact unbroken.act workers (isIdle_iff.mp idle) _
      · exact unbroken

theorem Unbroken.initial : Unbroken code .initial where
  traced := .initial
  calm := ⟨rfl,rfl,fun _ => rfl⟩
  entering _ _ here := by cases here
  linked _ := .nil

theorem traced_down {stack : List Frame} (linked : stack.IsChain (Linked code))
    (root : ∀ fr ∈ stack.getLast?, fr.traced = true)
    (plain : ∀ fr ∈ stack, code.canInstrument fr.func = true ∧ ∀ p, fr.pt = some p → worth code.toProgram p = true) :
    ∀ fr ∈ stack, fr.traced = true := by
  induction stack with
  | nil => exact fun _ listed => by cases listed
  | cons fr below ih =>
    cases below with
    | nil =>
      intro fr' listed
      rw [List.mem_singleton.mp listed]
      exact root fr (by simp)
    | cons caller below =>
      obtain ⟨link,rest⟩ := List.isChain_cons_cons.mp linked
      have under := ih rest root fun fr' listed => plain fr' (List.mem_cons_of_mem fr listed)
      intro fr' listed
      rcases List.mem_cons.mp listed with rfl | deeper
      · exact link (under caller List.mem_cons_self) (plain caller (by simp)).1 (plain _ List.mem_cons_self).2
      · exact under fr' deeper

end

/-- When no wrapper is skipped, every attempt succeeds, the program has not exited and no batch
is committed while another thread's run is under way, every function on a thread's stack was
entered through the payload, down from a root whose call points were walked through, if each
is one to instrument and was called at a point to instrument. -/
theorem stack_traced (code : Code) (workers : 0 < code.workers) (events : List Event) (steady : ∀ ev ∈ events, ev.Steady)
    (solo : Library.Meets (Execution.step code) (fun e ev => ev.Solo e.threads) .initial events)
    (t : Nat) (root : ∀ fr ∈ ((Library.run (Execution.step code) .initial events).stack t).getLast?, fr.traced = true)
    (plain : ∀ fr ∈ (Library.run (Execution.step code) .initial events).stack t, code.canInstrument fr.func = true ∧
      ∀ p, fr.pt = some p → worth code.toProgram p = true) :
    ∀ fr ∈ (Library.run (Execution.step code) .initial events).stack t, fr.traced = true := by
  have unbroken : Unbroken code (Library.run (Execution.step code) .initial events) :=
    @Library.invariant_run Execution Event (Execution.step code) (fun e ev => ev.Steady ∧ ev.Solo e.threads) (Unbroken code)
      (fun _ ev kept given => kept.step workers given.1 given.2) _ _ .initial (Library.Meets.and _ _ (Library.meets_of_forall _ steady) solo)
  exact traced_down (unbroken.linked t) root plain

/-- The stack of `tracedRun`, inside the callee. -/
theorem stack_traced_tracedRun :
    ((Library.run (Execution.step twoFunctions) .initial tracedRun).stack 0).map (fun fr => (fr.func,fr.pt)) =
      [(1,some 0),(0,none)] ∧
    ∀ fr ∈ (Library.run (Execution.step twoFunctions) .initial tracedRun).stack 0, fr.traced = true := by
  refine ⟨by decide,stack_traced twoFunctions (by decide) tracedRun ?_ solo_tracedRun 0 ?_ fun _ _ => ⟨rfl,fun _ _ => rfl⟩⟩
  · intro ev listed
    simp only [tracedRun,List.mem_cons,List.mem_append,List.mem_replicate,List.not_mem_nil,or_false] at listed
    rcases listed with rfl | (⟨_,rfl⟩ | rfl | rfl) | ⟨_,rfl⟩
    · trivial
    · exact ⟨rfl,rfl⟩
    · trivial
    · rfl
    · exact ⟨rfl,rfl⟩
  · decide

end SelfPropelled.Propagation
