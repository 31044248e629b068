import SelfPropelled.Installations
import SelfPropelled.Library.Run

/-! Propagation by several threads: `SpPropeller::go` checks and queues the call points of
a function, `SpInstrumenter::run` patches them. `Propel` and `SpThreadMgr::BeforeEntry` call
it under the global lock, the events call it without. There is one instrumenter, and all
runs go through its one list of commands. -/

namespace SelfPropelled.Propagation

/-- What is parsed of the program. Functions, points and blocks are numbered; functions may
share blocks, but one has a call point for each of its call blocks. Whether the patcher appends
its batch to the instrumenter's commands or puts it in their place is not the agent's code. -/
structure Program where
  block : Nat → Nat
  nextPoints : Nat → List Nat
  callee : Nat → Option Nat
  getCallee : Nat → Bool
  isBranch : Nat → Bool
  canInstrument : Nat → Bool
  directcallOnly : Bool
  noTailcall : Bool
  workers : Nat
  appends : Bool
  distinct : ∀ f, ((nextPoints f).map block).Nodup

def Program.commit (prog : Program) (old batch : List Nat) : List Nat := (if prog.appends then old else []) ++ batch

@[simp] theorem Program.commit_nil (prog : Program) (batch : List Nat) : prog.commit [] batch = batch := by
  simp [commit]

theorem Program.mem_commit {prog : Program} {old batch : List Nat} {p : Nat} :
    p ∈ prog.commit old batch ↔ prog.appends = true ∧ p ∈ old ∨ p ∈ batch := by
  unfold commit
  cases prog.appends <;> simp

structure Go where
  locked : Bool
  func : Nat
  instCalls : Option (Nat → Bool)

/-- Who calls `go`, with the function the parser finds: the callee of a point, the routine
of a new thread, a function an event names. -/
inductive Caller
  | propel (callee : Option Nat)
  | beforeEntry (routine : Option Nat)
  | registerEvent (func : Nat) (instCalls : Option (Nat → Bool))

def Caller.locks : Caller → Bool
  | .propel _ | .beforeEntry _ => true
  | .registerEvent _ _ => false

def Caller.func : Caller → Option Nat
  | .propel callee => callee
  | .beforeEntry routine => routine
  | .registerEvent f _ => some f

/-- Where a thread is. Inside `run`, `ι` says how far it is in the commands. -/
inductive Pc (ι : Type)
  | idle
  | spinning (caller : Caller)
  | acquired (caller : Caller)
  | checking (g : Go) (rest commands : List Nat)
  | setting (g : Go) (p : Nat) (rest commands : List Nat)
  | running (g : Go) (i : ι)
  | trying (g : Go) (p : Nat) (i : ι) (workers : Nat)
  | marking (g : Go) (p : Nat) (i : ι)
  | returned (g : Go)
  | unlocking

/-- A patch: the block written to, and the point and snippet it leads to. -/
structure Patch where
  block : Nat
  pt : Nat
  snip : Nat
deriving DecidableEq, Repr

/-- What all threads share. Snippets are numbered as they are created, from 1. -/
structure Shared where
  lock : Bool
  instrumented : Nat → Bool
  propagated : Nat → Bool
  snip : Nat → Nat
  created : Nat
  commands : List Nat
  patches : List Patch
  aborted : Bool

structure State (ι : Type) where
  shared : Shared
  pc : Nat → Pc ι

def State.initial {ι : Type} : State ι :=
  ⟨⟨false,fun _ => false,fun _ => false,fun _ => 0,0,[],[],false⟩,fun _ => .idle⟩

/-- How an attempt of a worker ends: whether it wrote to the call block, which block
it made a spring, what it returned. -/
structure Outcome where
  wrote : Bool
  spring : Option Nat
  ok : Bool
deriving DecidableEq, Repr

/-- One step of a thread: the caller an idle one starts as, the outcome an attempt has. -/
structure Input where
  tid : Nat
  caller : Caller
  outcome : Outcome

section
variable (prog : Program)

def interesting (g : Go) (p : Nat) : Bool :=
  match prog.callee p with
  | some f => prog.canInstrument f && (g.instCalls.map (· f)).getD true
  | none => g.instCalls.isNone

/-- The first checks of `go`. -/
def enter {ι : Type} (g : Go) : Pc ι :=
  if prog.canInstrument g.func then .checking g (prog.nextPoints g.func) [] else .returned g

def patchesOf (o : Outcome) (p snip : Nat) : List Patch :=
  (if o.wrote then [⟨prog.block p,p,snip⟩] else []) ++ (o.spring.map fun b => ⟨b,p,snip⟩).toList

def move (s : Shared) (caller : Caller) (o : Outcome) : Pc Nat → Shared × Pc Nat
  | .idle =>
    match caller with
    | .registerEvent f instCalls => (s,enter prog ⟨false,f,instCalls⟩)
    | .propel _ | .beforeEntry _ => (s,.spinning caller)
  | .spinning caller => if s.lock then (s,.spinning caller) else ({s with lock := true},.acquired caller)
  | .acquired (.propel none) | .acquired (.beforeEntry none) => (s,.unlocking)
  | .acquired (.propel (some f)) =>
    if s.propagated f then (s,.unlocking) else (s,enter prog ⟨true,f,none⟩)
  | .acquired (.beforeEntry (some f)) => (s,enter prog ⟨true,f,none⟩)
  | .acquired (.registerEvent f instCalls) => (s,enter prog ⟨true,f,instCalls⟩)
  | .checking g [] commands => ({s with commands := prog.commit s.commands commands},.running g 0)
  | .checking g (p :: rest) commands =>
    if s.instrumented (prog.block p) then (s,.checking g rest commands)
    else if interesting prog g p then (s,.setting g p rest commands)
    else (s,.checking g rest commands)
  | .setting g p rest commands =>
    ({s with snip := fun q => if q = p then s.created + 1 else s.snip q,created := s.created + 1},
      .checking g rest (commands ++ [p]))
  -- the iterator of `run`; where another run changes the list, it goes on at its position
  | .running g i =>
    match s.commands[i]? with
    | none => ({s with commands := []},.returned g)
    | some p =>
      if !prog.getCallee p && prog.directcallOnly then (s,.running g (i + 1))
      else if s.instrumented (prog.block p) then ({s with aborted := true},.running g i)
      else if prog.isBranch (prog.block p) && prog.noTailcall then (s,.running g (i + 1))
      else (s,.trying g p (i + 1) prog.workers)
  | .trying g _ i 0 => (s,.running g i)
  | .trying g p i (n + 1) =>
    ({s with patches := s.patches ++ patchesOf prog o p (s.snip p)},
      if o.ok then .marking g p i else .trying g p i n)
  | .marking g p i =>
    ({s with instrumented := fun b => b == prog.block p || s.instrumented b},.running g i)
  | .returned g =>
    if g.locked then ({s with propagated := fun f => f == g.func || s.propagated f},.unlocking) else (s,.idle)
  | .unlocking => ({s with lock := false},.idle)

/-- A failed assertion ends the process. -/
def step (s : State Nat) (i : Input) : State Nat :=
  if s.shared.aborted then s
  else
    let moved := move prog s.shared i.caller i.outcome (s.pc i.tid)
    ⟨moved.1,fun t => if t = i.tid then moved.2 else s.pc t⟩

end

namespace Pc

variable {ι κ : Type}

def map (f : ι → κ) : Pc ι → Pc κ
  | .idle => .idle
  | .spinning caller => .spinning caller
  | .acquired caller => .acquired caller
  | .checking g rest commands => .checking g rest commands
  | .setting g p rest commands => .setting g p rest commands
  | .running g i => .running g (f i)
  | .trying g p i workers => .trying g p (f i) workers
  | .marking g p i => .marking g p (f i)
  | .returned g => .returned g
  | .unlocking => .unlocking

def holds : Pc ι → Bool
  | .idle | .spinning _ => false
  | .acquired _ | .unlocking => true
  | .checking g _ _ | .setting g _ _ _ | .running g _ | .trying g _ _ _ | .marking g _ _ | .returned g => g.locked

def inRun : Pc ι → Bool
  | .running _ _ | .trying _ _ _ _ | .marking _ _ _ => true
  | .idle | .spinning _ | .acquired _ | .checking _ _ _ | .setting _ _ _ _ | .returned _ | .unlocking => false

/-- What `go` was called with. -/
def go : Pc ι → Option Go
  | .checking g _ _ | .setting g _ _ _ | .running g _ | .trying g _ _ _ | .marking g _ _ | .returned g => some g
  | .idle | .spinning _ | .acquired _ | .unlocking => none

def waiting : Pc ι → Option Caller
  | .spinning caller | .acquired caller => some caller
  | .idle | .checking _ _ _ | .setting _ _ _ _ | .running _ _ | .trying _ _ _ _ | .marking _ _ _ | .returned _
  | .unlocking => none

def rest : Pc ι → List Nat
  | .checking _ rest _ | .setting _ _ rest _ => rest
  | .idle | .spinning _ | .acquired _ | .running _ _ | .trying _ _ _ _ | .marking _ _ _ | .returned _ | .unlocking => []

def patched : Pc ι → List Nat
  | .marking _ p _ => [p]
  | .idle | .spinning _ | .acquired _ | .checking _ _ _ | .setting _ _ _ _ | .running _ _ | .trying _ _ _ _
  | .returned _ | .unlocking => []

/-- The points that were checked and not yet patched. -/
def queued : Pc (List Nat) → List Nat
  | .checking _ _ commands | .running _ commands | .marking _ _ commands => commands
  | .setting _ p _ commands | .trying _ p commands _ => p :: commands
  | .idle | .spinning _ | .acquired _ | .returned _ | .unlocking => []

def pending (pc : Pc (List Nat)) : List Nat := pc.patched ++ pc.queued

/-- With the commands that are still before the iterator. -/
def ahead (commands : List Nat) (pc : Pc Nat) : Pc (List Nat) := pc.map commands.drop

end Pc

namespace State

variable {ι : Type}

def ahead (s : State Nat) : State (List Nat) := ⟨s.shared,fun t => (s.pc t).ahead s.shared.commands⟩

def set (s : State ι) (t : Nat) (moved : Shared × Pc ι) : State ι :=
  ⟨moved.1,fun u => if u = t then moved.2 else s.pc u⟩

@[simp] theorem set_self (s : State ι) (t : Nat) (moved : Shared × Pc ι) : (s.set t moved).pc t = moved.2 := by
  simp [set]

theorem set_other (s : State ι) {t u : Nat} (other : u ≠ t) (moved : Shared × Pc ι) :
    (s.set t moved).pc u = s.pc u := by
  simp [set,other]

@[simp] theorem set_shared (s : State ι) (t : Nat) (moved : Shared × Pc ι) : (s.set t moved).shared = moved.1 := rfl

theorem set_pc (s : State ι) (t : Nat) (moved : Shared × Pc ι) (u : Nat) :
    (s.set t moved).pc u = s.pc u ∨ u = t ∧ (s.set t moved).pc u = moved.2 := by
  by_cases same : u = t
  · subst same
    exact .inr ⟨rfl,set_self s u moved⟩
  · exact .inl (set_other s same moved)

end State

theorem step_eq {prog : Program} {s : State Nat} (alive : s.shared.aborted = false) (i : Input) :
    step prog s i = s.set i.tid (move prog s.shared i.caller i.outcome (s.pc i.tid)) := by
  simp [step,alive,State.set]

/-! One step of a thread. -/

/-- The steps of `move`, one constructor for each thing it can do. -/
inductive Moves (prog : Program) (caller : Caller) (o : Outcome) : Shared → Pc Nat → Shared → Pc Nat → Prop
  | stay {sh c} : Moves prog caller o sh (.spinning c) sh (.spinning c)
  | call {sh} (locks : caller.locks = true) : Moves prog caller o sh .idle sh (.spinning caller)
  | event {sh f instCalls} (named : caller = .registerEvent f instCalls) : Moves prog caller o sh .idle sh (enter prog ⟨false,f,instCalls⟩)
  | acquire {sh c} (free : sh.lock = false) : Moves prog caller o sh (.spinning c) {sh with lock := true} (.acquired c)
  | nothing {sh c} (none : c = .propel none ∨ c = .beforeEntry none ∨ ∃ f, c = .propel (some f) ∧ sh.propagated f = true) :
      Moves prog caller o sh (.acquired c) sh .unlocking
  | walk {sh c f instCalls} (named : c = .propel (some f) ∧ instCalls = none ∧ sh.propagated f = false ∨
      c = .beforeEntry (some f) ∧ instCalls = none ∨ c = .registerEvent f instCalls) :
      Moves prog caller o sh (.acquired c) sh (enter prog ⟨true,f,instCalls⟩)
  | commit {sh g commands} : Moves prog caller o sh (.checking g [] commands)
      {sh with commands := prog.commit sh.commands commands} (.running g 0)
  | skip {sh g p rest commands} (out : sh.instrumented (prog.block p) = true ∨ interesting prog g p = false) :
      Moves prog caller o sh (.checking g (p :: rest) commands) sh (.checking g rest commands)
  | take {sh g p rest commands} (unmarked : sh.instrumented (prog.block p) = false)
      (taken : interesting prog g p = true) : Moves prog caller o sh (.checking g (p :: rest) commands) sh (.setting g p rest commands)
  | queue {sh g p rest commands} : Moves prog caller o sh (.setting g p rest commands)
      {sh with snip := fun q => if q = p then sh.created + 1 else sh.snip q,created := sh.created + 1}
      (.checking g rest (commands ++ [p]))
  | clear {sh g i} (done : sh.commands[i]? = none) : Moves prog caller o sh (.running g i) {sh with commands := []} (.returned g)
  | pass {sh g i p} (here : sh.commands[i]? = some p) (out : (!prog.getCallee p && prog.directcallOnly) = true ∨
      (prog.isBranch (prog.block p) && prog.noTailcall) = true) : Moves prog caller o sh (.running g i) sh (.running g (i + 1))
  | fail {sh g i p} (here : sh.commands[i]? = some p) (marked : sh.instrumented (prog.block p) = true) :
      Moves prog caller o sh (.running g i) {sh with aborted := true} (.running g i)
  | tryWorkers {sh g i p} (here : sh.commands[i]? = some p) (direct : (!prog.getCallee p && prog.directcallOnly) = false)
      (unmarked : sh.instrumented (prog.block p) = false) (plain : (prog.isBranch (prog.block p) && prog.noTailcall) = false) :
      Moves prog caller o sh (.running g i) sh (.trying g p (i + 1) prog.workers)
  | giveUp {sh g p i} : Moves prog caller o sh (.trying g p i 0) sh (.running g i)
  | attempt {sh g p i n} : Moves prog caller o sh (.trying g p i (n + 1))
      {sh with patches := sh.patches ++ patchesOf prog o p (sh.snip p)}
      (if o.ok then .marking g p i else .trying g p i n)
  | mark {sh g p i} : Moves prog caller o sh (.marking g p i)
      {sh with instrumented := fun b => b == prog.block p || sh.instrumented b} (.running g i)
  | propagated {sh g} (locked : g.locked = true) : Moves prog caller o sh (.returned g)
      {sh with propagated := fun f => f == g.func || sh.propagated f} .unlocking
  | registered {sh g} (free : g.locked = false) : Moves prog caller o sh (.returned g) sh .idle
  | unlock {sh} : Moves prog caller o sh .unlocking {sh with lock := false} .idle

section
variable {prog : Program} {caller : Caller} {o : Outcome} {sh sh' : Shared} {pc pc' : Pc Nat} {ι : Type}

theorem moves (prog : Program) (sh : Shared) (caller : Caller) (o : Outcome) (pc : Pc Nat) :
    Moves prog caller o sh pc (move prog sh caller o pc).1 (move prog sh caller o pc).2 := by
  cases pc with
  | idle =>
    cases caller with
    | registerEvent f instCalls => exact .event rfl
    | propel callee | beforeEntry callee => exact .call rfl
  | spinning caller =>
    simp only [move]
    split
    · exact .stay
    · exact .acquire (Bool.eq_false_iff.mpr ‹_›)
  | acquired caller =>
    cases caller with
    | propel callee =>
      cases callee with
      | none => exact .nothing (.inl rfl)
      | some f =>
        simp only [move]
        split
        · rename_i done
          exact .nothing (.inr (.inr ⟨f,rfl,done⟩))
        · exact .walk (.inl ⟨rfl,rfl,Bool.eq_false_iff.mpr ‹_›⟩)
    | beforeEntry routine =>
      cases routine with
      | none => exact .nothing (.inr (.inl rfl))
      | some f => exact .walk (.inr (.inl ⟨rfl,rfl⟩))
    | registerEvent f instCalls => exact .walk (.inr (.inr rfl))
  | checking g rest commands =>
    cases rest with
    | nil => exact .commit
    | cons p rest =>
      simp only [move]
      split
      · exact .skip (.inl ‹_›)
      · rename_i unmarked
        split
        · exact .take (Bool.eq_false_iff.mpr unmarked) ‹_›
        · exact .skip (.inr (Bool.eq_false_iff.mpr ‹_›))
  | setting g p rest commands => exact .queue
  | running g i =>
    simp only [move]
    split
    next done => exact .clear done
    next p here =>
      split
      · exact .pass here (.inl ‹_›)
      next direct =>
        split
        · exact .fail here ‹_›
        next unmarked =>
          split
          · exact .pass here (.inr ‹_›)
          next plain =>
            exact .tryWorkers here (Bool.eq_false_iff.mpr direct) (Bool.eq_false_iff.mpr unmarked) (Bool.eq_false_iff.mpr plain)
  | trying g p i workers =>
    cases workers with
    | zero => exact .giveUp
    | succ n => exact .attempt
  | marking g p i => exact .mark
  | returned g =>
    simp only [move]
    split
    · exact .propagated ‹_›
    · exact .registered (Bool.eq_false_iff.mpr ‹_›)
  | unlocking => exact .unlock

theorem go_enter (g : Go) : (enter prog g : Pc ι).go = some g := by
  unfold enter
  split <;> rfl

theorem patched_enter (g : Go) : (enter prog g : Pc ι).patched = [] := by
  unfold enter
  split <;> rfl

theorem waiting_enter (g : Go) : (enter prog g : Pc ι).waiting = none := by
  unfold enter
  split <;> rfl

theorem inRun_enter (g : Go) : (enter prog g : Pc ι).inRun = false := by
  unfold enter
  split <;> rfl

theorem holds_enter (g : Go) : (enter prog g : Pc ι).holds = true → g.locked = true := by
  unfold enter
  split <;> exact id

theorem pending_enter (g : Go) : (enter prog g).pending = [] := by
  unfold enter
  split <;> rfl

/-! What is ahead of a thread. -/

@[simp] theorem ahead_enter (commands : List Nat) (g : Go) : (enter prog g).ahead commands = enter prog g := by
  unfold enter
  split <;> rfl

@[simp] theorem holds_ahead (commands : List Nat) (pc : Pc Nat) : (pc.ahead commands).holds = pc.holds := by
  cases pc <;> rfl

@[simp] theorem go_ahead (commands : List Nat) (pc : Pc Nat) : (pc.ahead commands).go = pc.go := by
  cases pc <;> rfl

@[simp] theorem patched_ahead (commands : List Nat) (pc : Pc Nat) : (pc.ahead commands).patched = pc.patched := by
  cases pc <;> rfl

theorem ahead_of_out (out : pc.inRun = false) (commands commands' : List Nat) :
    pc.ahead commands = pc.ahead commands' := by
  cases pc with
  | running | trying | marking => cases out
  | _ => rfl

theorem drop_of_getElem? {commands : List Nat} {i p : Nat} (here : commands[i]? = some p) :
    commands.drop i = p :: commands.drop (i + 1) := by
  obtain ⟨bound,rfl⟩ := List.getElem?_eq_some_iff.mp here
  exact List.drop_eq_getElem_cons bound

theorem drop_of_getElem?_none {commands : List Nat} {i : Nat} (done : commands[i]? = none) : commands.drop i = [] :=
  List.drop_eq_nil_of_le (List.getElem?_eq_none_iff.mp done)

theorem ahead_running {commands : List Nat} {i p : Nat} (here : commands[i]? = some p) (g : Go) :
    (Pc.running g i).ahead commands = .running g (p :: commands.drop (i + 1)) :=
  congrArg (Pc.running g) (drop_of_getElem? here)

/-! The lock. -/

/-- Only one thread is inside the lock. -/
structure Mutex (s : State ι) : Prop where
  lock : ∀ t, (s.pc t).holds = true → s.shared.lock = true
  one : ∀ t u, (s.pc t).holds = true → (s.pc u).holds = true → t = u

section
variable {s : State ι} {t : Nat} {here : Pc ι}

theorem Mutex.same (mutex : Mutex s) (lock : sh.lock = s.shared.lock)
    (holds : here.holds = true → (s.pc t).holds = true) : Mutex (s.set t (sh,here)) := by
  have old : ∀ u, ((s.set t (sh,here)).pc u).holds = true → (s.pc u).holds = true := by
    intro u held
    rcases s.set_pc t (sh,here) u with same | ⟨rfl,same⟩ <;> rw [same] at held
    · exact held
    · exact holds held
  exact ⟨fun u held => lock.trans (mutex.lock u (old u held)),fun u v held held' => mutex.one u v (old u held) (old v held')⟩

theorem Mutex.acquire (mutex : Mutex s) (free : s.shared.lock = false) (lock : sh.lock = true) :
    Mutex (s.set t (sh,here)) := by
  have own : ∀ u, ((s.set t (sh,here)).pc u).holds = true → u = t := by
    intro u held
    rcases s.set_pc t (sh,here) u with same | ⟨rfl,_⟩
    · rw [same] at held
      exact absurd (mutex.lock u held) (by simp [free])
    · rfl
  exact ⟨fun _ _ => lock,fun u v held held' => (own u held).trans (own v held').symm⟩

theorem Mutex.release (mutex : Mutex s) (held : (s.pc t).holds = true) (out : here.holds = false) :
    Mutex (s.set t (sh,here)) := by
  have none : ∀ u, ((s.set t (sh,here)).pc u).holds = false := by
    intro u
    by_cases own : u = t
    · rw [own,State.set_self]
      exact out
    · rw [State.set_other s own]
      cases held' : (s.pc u).holds with
      | false => rfl
      | true => exact absurd (mutex.one u t held' held) own
  exact ⟨fun u held => by simp [none u] at held,fun u v held => by simp [none u] at held⟩

theorem Mutex.initial : Mutex (.initial : State ι) where
  lock _ held := by cases held
  one _ _ held := by cases held

end

/-- A thread is inside after a step as it was before, or has just got the lock, or given it back. -/
theorem Moves.lock (moved : Moves prog caller o sh pc sh' pc') :
    sh'.lock = sh.lock ∧ (pc'.holds = true → pc.holds = true) ∨ sh.lock = false ∧ sh'.lock = true ∨
      pc.holds = true ∧ pc'.holds = false := by
  cases moved with
  | acquire free => exact .inr (.inl ⟨free,rfl⟩)
  | unlock => exact .inr (.inr ⟨rfl,rfl⟩)
  | event => exact .inl ⟨rfl,fun held => absurd (holds_enter _ held) (by simp)⟩
  | walk | nothing => exact .inl ⟨rfl,fun _ => rfl⟩
  | propagated locked => exact .inl ⟨rfl,fun _ => locked⟩
  | call | registered => exact .inl ⟨rfl,fun held => by cases held⟩
  | attempt =>
    refine .inl ⟨rfl,fun held => ?_⟩
    split at held <;> exact held
  | stay | commit | skip | take | queue | clear | pass | fail | tryWorkers | giveUp | mark => exact .inl ⟨rfl,id⟩

section
variable {s : State Nat} {t : Nat}

theorem Mutex.moves (mutex : Mutex s) (moved : Moves prog caller o s.shared (s.pc t) sh pc) : Mutex (s.set t (sh,pc)) := by
  rcases moved.lock with ⟨lock,inside⟩ | ⟨free,lock⟩ | ⟨held,out⟩
  · exact mutex.same lock inside
  · exact mutex.acquire free lock
  · exact mutex.release held out

theorem Mutex.step (mutex : Mutex s) (i : Input) : Mutex (step prog s i) := by
  cases alive : s.shared.aborted with
  | true =>
    rw [Propagation.step,alive,if_pos rfl]
    exact mutex
  | false =>
    rw [step_eq alive]
    exact mutex.moves (Propagation.moves prog s.shared i.caller i.outcome (s.pc i.tid))

/-! The list of commands. -/

/-- The thread does not commit its batch while another one is in `run`, unless both are inside
the lock. -/
def Solo (s : State Nat) (t : Nat) : Prop :=
  ∀ g commands, s.pc t = .checking g [] commands → ∀ u, u ≠ t → (s.pc u).inRun = true →
    g.locked = true ∧ (s.pc u).holds = true

/-- One thread at most is in `run`, and there are commands only for it. -/
structure Sole (s : State Nat) : Prop where
  one : ∀ t u, (s.pc t).inRun = true → (s.pc u).inRun = true → t = u
  empty : (∀ t, (s.pc t).inRun = false) → s.shared.commands = []

structure Exclusive (s : State Nat) : Prop where
  mutex : Mutex s
  sole : Sole s

/-- A step leaves the commands as they are, or commits a batch, or clears them. -/
theorem Moves.commands (moved : Moves prog caller o sh pc sh' pc') :
    sh'.commands = sh.commands ∧ pc'.inRun = pc.inRun ∨
      (∃ g batch, pc = .checking g [] batch ∧ pc'.inRun = true ∧ sh'.commands = prog.commit sh.commands batch) ∨
      pc.inRun = true ∧ pc'.inRun = false ∧ sh'.commands = [] := by
  cases moved with
  | commit => exact .inr (.inl ⟨_,_,rfl,rfl,rfl⟩)
  | clear => exact .inr (.inr ⟨rfl,rfl,rfl⟩)
  | event | walk => exact .inl ⟨rfl,inRun_enter _⟩
  | attempt =>
    left
    split <;> exact ⟨rfl,rfl⟩
  | stay | call | acquire | nothing | skip | take | queue | pass | fail | tryWorkers | giveUp | mark | propagated
  | registered | unlock => exact .inl ⟨rfl,rfl⟩

/-- Who commits is alone. -/
theorem Exclusive.alone (exclusive : Exclusive s) (solo : Solo s t) {g : Go} {batch : List Nat}
    (here : s.pc t = .checking g [] batch) (u : Nat) : (s.pc u).inRun = false := by
  by_cases own : u = t
  · rw [own,here]
    rfl
  · by_contra inside
    obtain ⟨locked,held⟩ := solo g batch here u own (by simpa using inside)
    exact own (exclusive.mutex.one u t held (by rw [here]; exact locked))

theorem Exclusive.fresh (exclusive : Exclusive s) (solo : Solo s t) {g : Go} {batch : List Nat}
    (here : s.pc t = .checking g [] batch) : s.shared.commands = [] :=
  exclusive.sole.empty (exclusive.alone solo here)

theorem Exclusive.moves (exclusive : Exclusive s) (solo : Solo s t)
    (moved : Moves prog caller o s.shared (s.pc t) sh pc) : Exclusive (s.set t (sh,pc)) := by
  refine ⟨exclusive.mutex.moves moved,?_⟩
  rcases moved.commands with ⟨kept,same⟩ | ⟨g,batch,here,inside,_⟩ | ⟨inside,out,cleared⟩
  · have old : ∀ u, ((s.set t (sh,pc)).pc u).inRun = (s.pc u).inRun := by
      intro u
      rcases s.set_pc t (sh,pc) u with other | ⟨rfl,own⟩
      · rw [other]
      · rw [own,same]
    refine ⟨fun u v => ?_,fun none => kept.trans (exclusive.sole.empty fun u => by rw [← old]; exact none u)⟩
    rw [old,old]
    exact exclusive.sole.one u v
  · have own : ∀ u, ((s.set t (sh,pc)).pc u).inRun = true → u = t := by
      intro u running
      rcases s.set_pc t (sh,pc) u with other | ⟨rfl,_⟩
      · rw [other,exclusive.alone solo here u] at running
        cases running
      · rfl
    refine ⟨fun u v running running' => (own u running).trans (own v running').symm,fun none => ?_⟩
    have last := none t
    rw [State.set_self] at last
    exact absurd inside (by simp [last])
  · have none : ∀ u, ((s.set t (sh,pc)).pc u).inRun = false := by
      intro u
      rcases s.set_pc t (sh,pc) u with other | ⟨rfl,own⟩
      · rw [other]
        by_contra running
        rw [Bool.not_eq_false] at running
        obtain rfl := exclusive.sole.one t u inside running
        rw [State.set_self] at other
        rw [← other,out] at running
        cases running
      · rw [own]
        exact out
    exact ⟨fun u v running => by simp [none u] at running,fun _ => cleared⟩

theorem Exclusive.step (exclusive : Exclusive s) (i : Input) (solo : Solo s i.tid) : Exclusive (step prog s i) := by
  cases alive : s.shared.aborted with
  | true =>
    rw [Propagation.step,alive,if_pos rfl]
    exact exclusive
  | false =>
    rw [step_eq alive]
    exact exclusive.moves solo (Propagation.moves prog s.shared i.caller i.outcome (s.pc i.tid))

theorem Exclusive.initial : Exclusive .initial where
  mutex := .initial
  sole := ⟨fun _ _ inside => (by cases inside),fun _ => rfl⟩

/-- A step changes nothing that is ahead of another thread. -/
theorem Moves.ahead (moved : Moves prog caller o s.shared (s.pc t) sh pc) (exclusive : Exclusive s) (solo : Solo s t) :
    (s.set t (sh,pc)).ahead = s.ahead.set t (sh,pc.ahead sh.commands) := by
  have others : ∀ u, u ≠ t → (s.pc u).ahead sh.commands = (s.pc u).ahead s.shared.commands := by
    intro u other
    rcases moved.commands with ⟨kept,_⟩ | ⟨g,batch,here,_⟩ | ⟨inside,_⟩
    · rw [kept]
    · exact ahead_of_out (exclusive.alone solo here u) _ _
    · apply ahead_of_out
      by_contra running
      exact other (exclusive.sole.one u t (by simpa using running) inside)
  have pcs : (s.set t (sh,pc)).ahead.pc = (s.ahead.set t (sh,pc.ahead sh.commands)).pc := by
    funext u
    by_cases own : u = t
    · subst own
      simp [State.ahead]
    · rw [State.set_other _ own]
      change ((s.set t (sh,pc)).pc u).ahead sh.commands = _
      rw [State.set_other s own,others u own]
      rfl
  exact congrArg (State.mk sh) pcs

end

/-! Callers that take the lock. -/

def Pc.within : Pc ι → Bool
  | .idle | .spinning _ => true
  | pc => pc.holds

theorem within_enter {g : Go} (locked : g.locked = true) : (enter prog g : Pc ι).within = true := by
  unfold enter
  split <;> exact locked

theorem Moves.within (moved : Moves prog caller o sh pc sh' pc') (locks : caller.locks = true)
    (within : pc.within = true) : pc'.within = true := by
  cases moved with
  | event named =>
    rw [named] at locks
    cases locks
  | walk => exact within_enter rfl
  | attempt => split <;> exact within
  | call | acquire | nothing | propagated | registered | unlock => rfl
  | stay | commit | skip | take | queue | clear | pass | fail | tryWorkers | giveUp | mark => exact within

variable {s : State Nat}

theorem within_step (all : ∀ t, (s.pc t).within = true) {i : Input} (locks : i.caller.locks = true) (t : Nat) :
    ((step prog s i).pc t).within = true := by
  cases alive : s.shared.aborted with
  | true =>
    rw [step,alive,if_pos rfl]
    exact all t
  | false =>
    rw [step_eq alive]
    rcases s.set_pc i.tid (move prog s.shared i.caller i.outcome (s.pc i.tid)) t with other | ⟨_,own⟩
    · rw [other]
      exact all t
    · rw [own]
      exact (moves prog s.shared i.caller i.outcome (s.pc i.tid)).within locks (all i.tid)

theorem holds_of_within {pc : Pc ι} (within : pc.within = true) (started : pc.go.isSome = true) : pc.holds = true := by
  cases pc with
  | idle | spinning | acquired | unlocking => cases started
  | _ => exact within

/-- The lock keeps their runs apart. -/
theorem solo_of_within (all : ∀ t, (s.pc t).within = true) (t : Nat) : Solo s t := by
  intro g batch here u _ running
  refine ⟨?_,holds_of_within (all u) ?_⟩
  · have own := all t
    rwa [here] at own
  · cases there : s.pc u with
    | running | trying | marking => rfl
    | _ =>
      rw [there] at running
      cases running

end

end SelfPropelled.Propagation
