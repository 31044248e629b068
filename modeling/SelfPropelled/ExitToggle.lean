import SelfPropelled.PatchOnce

/-! The end of instrumentation: the payload of the exit function clears `IN_INSTRUMENTATION`,
which `Propel` reads before it takes the lock and nobody reads after. -/

namespace SelfPropelled.Propagation

/-- The threads with the flag, and the functions whose instrumentation was started. -/
structure Process where
  threads : State Nat
  inInstrumentation : Bool
  started : List Nat

def Process.initial : Process := ⟨.initial,true,[]⟩

inductive Act
  | toggleOff
  | thread (i : Input)

def startedBy : Pc Nat → Pc Nat → List Nat
  | .idle, .checking g _ _ => [g.func]
  | .acquired _, .checking g _ _ => [g.func]
  | _, _ => []

def Process.refuses (s : Process) (i : Input) : Bool :=
  !s.inInstrumentation &&
    match s.threads.pc i.tid, i.caller with
    | .idle, .propel _ => true
    | _, _ => false

section
variable (prog : Program)

def Process.step (s : Process) : Act → Process
  | .toggleOff => {s with inInstrumentation := false}
  | .thread i =>
    if s.refuses i then s
    else
      let threads := Propagation.step prog s.threads i
      {s with threads := threads, started := s.started ++ startedBy (s.threads.pc i.tid) (threads.pc i.tid)}

/-- Does the caller start the instrumentation of a function? -/
def enters (sh : Shared) : Caller → Bool
  | .propel none | .beforeEntry none => false
  | .propel (some f) => !sh.propagated f && prog.canInstrument f
  | .beforeEntry (some f) => prog.canInstrument f
  | .registerEvent f _ => prog.canInstrument f

/-- Is a worker tried on the point when `run` comes to it? -/
def tries (marks : Nat → Bool) (p : Nat) : Bool :=
  !(!prog.getCallee p && prog.directcallOnly) && !marks (prog.block p) && !(prog.isBranch (prog.block p) && prog.noTailcall) &&
    prog.workers != 0

def willTry (marks : Nat → Bool) (commands : List Nat) : Bool := commands.any (tries prog marks)

def toQueue (marks : Nat → Bool) (g : Go) (rest : List Nat) : List Nat :=
  rest.filter fun p => !marks (prog.block p) && interesting prog g p

/-- Has the thread a function to start, or a point to try a worker on? -/
def busy (sh : Shared) : Pc Nat → Bool
  | .idle | .returned _ | .unlocking => false
  | .spinning caller | .acquired caller => enters prog sh caller
  | .checking g rest commands =>
    willTry prog sh.instrumented (prog.commit sh.commands (commands ++ toQueue prog sh.instrumented g rest))
  | .setting g p rest commands =>
    willTry prog sh.instrumented (prog.commit sh.commands (commands ++ p :: toQueue prog sh.instrumented g rest))
  | .running _ i => willTry prog sh.instrumented (sh.commands.drop i)
  | .trying _ _ i workers => workers != 0 || willTry prog sh.instrumented (sh.commands.drop i)
  | .marking _ p i =>
    willTry prog (fun b => b == prog.block p || sh.instrumented b) (sh.commands.drop i)

/-- At the toggle no thread is busy, and after it no thread is created at a function that can
be instrumented, and no event is registered for one. -/
def LateClear (s : Process) : Act → Prop
  | .toggleOff => s.inInstrumentation = true → ∀ t, busy prog s.threads.shared (s.threads.pc t) = false
  | .thread i => s.inInstrumentation = false → s.refuses i = false → s.threads.pc i.tid = .idle →
      enters prog s.threads.shared i.caller = false

def Settled (s : Process) : Prop :=
  s.inInstrumentation = false → ∀ t, busy prog s.threads.shared (s.threads.pc t) = false

end

section
variable {prog : Program} {marks marks' : Nat → Bool}

theorem tries_later (later : ∀ b, marks b = true → marks' b = true) {p : Nat} (tried : tries prog marks' p = true) :
    tries prog marks p = true := by
  simp only [tries,Bool.and_eq_true,Bool.not_eq_true'] at tried ⊢
  obtain ⟨⟨⟨direct,unmarked⟩,plain⟩,workers⟩ := tried
  refine ⟨⟨⟨direct,?_⟩,plain⟩,workers⟩
  cases marked : marks (prog.block p) with
  | false => rfl
  | true => exact absurd (later _ marked) (by simp [unmarked])

/-- Of fewer points with more marks fewer are tried. -/
theorem willTry_mono (later : ∀ b, marks b = true → marks' b = true) {points points' : List Nat}
    (fewer : ∀ p ∈ points', tries prog marks' p = true → p ∈ points) (tried : willTry prog marks' points' = true) :
    willTry prog marks points = true := by
  obtain ⟨p,listed,good⟩ := List.any_eq_true.mp tried
  exact List.any_eq_true.mpr ⟨p,fewer p listed good,tries_later later good⟩

theorem willTry_eq_false {points : List Nat} : willTry prog marks points = false ↔ ∀ p ∈ points, tries prog marks p = false := by
  simp [willTry]

/-- Blocks that are marked stay marked and functions propagated, and no point to try comes to the commands. -/
structure Shared.Later (prog : Program) (sh sh' : Shared) : Prop where
  instrumented : ∀ b, sh.instrumented b = true → sh'.instrumented b = true
  propagated : ∀ f, sh.propagated f = true → sh'.propagated f = true
  commands : sh'.commands = sh.commands ∨ willTry prog sh'.instrumented sh'.commands = false

theorem Shared.Later.refl (prog : Program) (sh : Shared) : sh.Later prog sh := ⟨fun _ => id,fun _ => id,.inl rfl⟩

theorem mem_toQueue {g : Go} {rest : List Nat} {p : Nat} :
    p ∈ toQueue prog marks g rest ↔ p ∈ rest ∧ marks (prog.block p) = false ∧ interesting prog g p = true := by
  simp [toQueue]

theorem unmarked_of_tries {p : Nat} (tried : tries prog marks p = true) : marks (prog.block p) = false := by
  simp only [tries,Bool.and_eq_true,Bool.not_eq_true'] at tried
  exact tried.1.1.2

section
variable {sh sh' : Shared} (later : sh.Later prog sh')
include later

theorem Shared.Later.kept {p : Nat} (listed : p ∈ sh'.commands) (tried : tries prog sh'.instrumented p = true) :
    sh'.commands = sh.commands := by
  refine later.commands.resolve_right fun none => ?_
  rw [willTry_eq_false.mp none p listed] at tried
  cases tried

theorem Shared.Later.dropped {i p : Nat} (listed : p ∈ sh'.commands.drop i) (tried : tries prog sh'.instrumented p = true) :
    p ∈ sh.commands.drop i := by
  rwa [later.kept (List.mem_of_mem_drop listed) tried] at listed

theorem Shared.Later.committed {g : Go} {rest batch : List Nat} {p : Nat}
    (listed : p ∈ prog.commit sh'.commands (batch ++ toQueue prog sh'.instrumented g rest))
    (tried : tries prog sh'.instrumented p = true) :
    p ∈ prog.commit sh.commands (batch ++ toQueue prog sh.instrumented g rest) := by
  rw [Program.mem_commit,List.mem_append,mem_toQueue] at listed ⊢
  rcases listed with ⟨appends,old⟩ | queued | ⟨waits,_,asked⟩
  · exact .inl ⟨appends,by rwa [later.kept old tried] at old⟩
  · exact .inr (.inl queued)
  · exact .inr (.inr ⟨waits,unmarked_of_tries (tries_later later.instrumented tried),asked⟩)

theorem busy_later {pc : Pc Nat} (busy' : busy prog sh' pc = true) : busy prog sh pc = true := by
  have marks := later.instrumented
  cases pc with
  | idle | returned | unlocking => cases busy'
  | spinning caller | acquired caller =>
    cases caller with
    | propel callee =>
      cases callee with
      | none => cases busy'
      | some f =>
        simp only [busy,enters,Bool.and_eq_true,Bool.not_eq_true'] at busy' ⊢
        refine ⟨?_,busy'.2⟩
        cases done : sh.propagated f with
        | false => rfl
        | true => exact absurd (later.propagated f done) (by simp [busy'.1])
    | beforeEntry routine => cases routine <;> exact busy'
    | registerEvent f instCalls => exact busy'
  | checking g rest commands => exact willTry_mono marks (fun p listed tried => later.committed listed tried) busy'
  | setting g p rest commands =>
    refine willTry_mono marks (fun q listed tried => ?_) busy'
    rw [← List.singleton_append,← List.append_assoc] at listed ⊢
    exact later.committed listed tried
  | running g i => exact willTry_mono marks (fun p listed tried => later.dropped listed tried) busy'
  | trying g p i workers =>
    simp only [busy,Bool.or_eq_true] at busy' ⊢
    exact busy'.imp_right (willTry_mono marks fun p listed tried => later.dropped listed tried)
  | marking g p i =>
    have both : ∀ b, (b == prog.block p || sh.instrumented b) = true →
        (b == prog.block p || sh'.instrumented b) = true := by
      intro b marked
      simp only [Bool.or_eq_true] at marked ⊢
      exact marked.imp_right (marks b)
    refine willTry_mono both (fun q listed tried => ?_) busy'
    exact later.dropped listed (tries_later (fun b marked => by simp [marked]) tried)

end

theorem busy_enter {sh : Shared} {g : Go} (refused : prog.canInstrument g.func = false) :
    busy prog sh (enter prog g) = false := by
  simp [enter,refused,busy]

theorem startedBy_enter {g : Go} (refused : prog.canInstrument g.func = false) (pc : Pc Nat) :
    startedBy pc (enter prog g) = [] := by
  simp only [enter,refused,Bool.false_eq_true,if_false]
  cases pc <;> rfl

/-- What a step of a thread that is not busy leads to. -/
structure Idle (prog : Program) (sh : Shared) (pc : Pc Nat) (sh' : Shared) (pc' : Pc Nat) : Prop where
  patches : sh'.patches = sh.patches
  started : startedBy pc pc' = []
  quiet : busy prog sh' pc' = false
  later : sh.Later prog sh'

theorem Moves.idle {caller : Caller} {o : Outcome} {sh sh' : Shared} {pc pc' : Pc Nat}
    (moved : Moves prog caller o sh pc sh' pc') (quiet : busy prog sh pc = false)
    (harmless : pc = .idle → enters prog sh caller = false) : Idle prog sh pc sh' pc' := by
  have same : ∀ {pc''}, startedBy pc pc'' = [] → busy prog sh pc'' = false → Idle prog sh pc sh pc'' :=
    fun none quiet => ⟨rfl,none,quiet,.refl prog sh⟩
  cases moved with
  | stay => exact same rfl quiet
  | call => exact same rfl (harmless rfl)
  | event named =>
    have refused := harmless rfl
    rw [named] at refused
    exact same (startedBy_enter refused _) (busy_enter refused)
  | acquire =>
    refine ⟨rfl,rfl,?_,⟨fun _ => id,fun _ => id,.inl rfl⟩⟩
    rename_i c _
    cases c with
    | propel callee | beforeEntry callee => cases callee <;> exact quiet
    | registerEvent f instCalls => exact quiet
  | nothing => exact same rfl rfl
  | walk named =>
    rename_i c f instCalls
    have refused : prog.canInstrument f = false := by
      rcases named with ⟨rfl,_,fresh⟩ | ⟨rfl,_⟩ | rfl
      · simpa [busy,enters,fresh] using quiet
      · exact quiet
      · exact quiet
    exact same (startedBy_enter refused _) (busy_enter refused)
  | commit =>
    simp only [busy,toQueue,List.filter_nil,List.append_nil] at quiet
    exact ⟨rfl,rfl,quiet,⟨fun _ => id,fun _ => id,.inr quiet⟩⟩
  | skip out =>
    refine same rfl ?_
    rcases out with marked | other
    · simpa [busy,toQueue,marked] using quiet
    · simpa [busy,toQueue,other] using quiet
  | take unmarked taken => exact same rfl (by simpa [busy,toQueue,unmarked,taken] using quiet)
  | queue => exact ⟨rfl,rfl,by simpa [busy] using quiet,⟨fun _ => id,fun _ => id,.inl rfl⟩⟩
  | clear => exact ⟨rfl,rfl,rfl,⟨fun _ => id,fun _ => id,.inr rfl⟩⟩
  | pass here =>
    simp only [busy,drop_of_getElem? here,willTry_eq_false,List.forall_mem_cons] at quiet
    exact same rfl (willTry_eq_false.mpr quiet.2)
  | fail => exact ⟨rfl,rfl,quiet,⟨fun _ => id,fun _ => id,.inl rfl⟩⟩
  | tryWorkers here direct unmarked plain =>
    simp only [busy,drop_of_getElem? here,willTry_eq_false,List.forall_mem_cons] at quiet
    have none : (prog.workers != 0) = false := by simpa [tries,direct,unmarked,plain] using quiet.1
    exact same rfl (by simp [busy,none,willTry_eq_false.mpr quiet.2])
  | giveUp => exact same rfl (by simpa [busy] using quiet)
  | attempt => simp [busy] at quiet
  | mark => exact ⟨rfl,rfl,quiet,⟨fun b marked => by simp [marked],fun _ => id,.inl rfl⟩⟩
  | propagated => exact ⟨rfl,rfl,rfl,⟨fun _ => id,fun f done => by simp [done],.inl rfl⟩⟩
  | registered => exact same rfl rfl
  | unlock => exact ⟨rfl,rfl,rfl,⟨fun _ => id,fun _ => id,.inl rfl⟩⟩

/-- The flag only leaves steps out: the threads do what they could do without it. -/
theorem threads_run (s : Process) (acts : List Act) : ∃ inputs : List Input,
    (Library.run (Process.step prog) s acts).threads = Library.run (step prog) s.threads inputs := by
  induction acts generalizing s with
  | nil => exact ⟨[],rfl⟩
  | cons a acts ih =>
    obtain ⟨inputs,same⟩ := ih (s.step prog a)
    cases a with
    | toggleOff => exact ⟨inputs,same⟩
    | thread i =>
      cases refused : s.refuses i with
      | true =>
        have stays : s.step prog (.thread i) = s := by simp [Process.step,refused]
        rw [stays] at same
        exact ⟨inputs,by rw [Library.run_cons,stays,same]⟩
      | false =>
        have goes : (s.step prog (.thread i)).threads = step prog s.threads i := by
          simp [Process.step,refused]
        exact ⟨i :: inputs,by rw [Library.run_cons,same,goes,Library.run_cons]⟩

structure Quiet (s s' : Process) : Prop where
  patches : s'.threads.shared.patches = s.threads.shared.patches
  started : s'.started = s.started

theorem Quiet.trans {s s' s'' : Process} (first : Quiet s s') (second : Quiet s' s'') : Quiet s s'' :=
  ⟨second.patches.trans first.patches,second.started.trans first.started⟩

theorem off_step {s : Process} (off : s.inInstrumentation = false) (a : Act) :
    (s.step prog a).inInstrumentation = false := by
  cases a with
  | toggleOff => rfl
  | thread i =>
    simp only [Process.step]
    split <;> exact off

theorem quiet_step {s : Process} (off : s.inInstrumentation = false) (settled : Settled prog s) (a : Act)
    (clear : LateClear prog s a) : Quiet s (s.step prog a) ∧ Settled prog (s.step prog a) := by
  cases a with
  | toggleOff => exact ⟨⟨rfl,rfl⟩,fun _ => settled off⟩
  | thread i =>
    simp only [Process.step]
    split
    · exact ⟨⟨rfl,rfl⟩,settled⟩
    next asked =>
      have harmless := clear off (by simpa using asked)
      have rest := settled off
      cases alive : s.threads.shared.aborted with
      | true =>
        have stays : step prog s.threads i = s.threads := by rw [step,alive,if_pos rfl]
        have none : startedBy (s.threads.pc i.tid) (s.threads.pc i.tid) = [] := by
          cases s.threads.pc i.tid <;> rfl
        rw [stays,none,List.append_nil]
        exact ⟨⟨rfl,rfl⟩,settled⟩
      | false =>
        have idle := (moves prog s.threads.shared i.caller i.outcome (s.threads.pc i.tid)).idle (rest i.tid) harmless
        rw [step_eq alive,State.set_self,idle.started,List.append_nil]
        refine ⟨⟨idle.patches,rfl⟩,fun _ t => ?_⟩
        change busy prog (move prog s.threads.shared i.caller i.outcome (s.threads.pc i.tid)).1
          ((s.threads.set i.tid _).pc t) = false
        rcases eq_or_ne t i.tid with rfl | other
        · rw [State.set_self]
          exact idle.quiet
        · rw [State.set_other _ other]
          have old := rest t
          cases busy' : busy prog (move prog s.threads.shared i.caller i.outcome (s.threads.pc i.tid)).1
              (s.threads.pc t) with
          | false => rfl
          | true => exact absurd (busy_later idle.later busy') (by simp [old])

theorem settled_step {s : Process} (settled : Settled prog s) (a : Act) (clear : LateClear prog s a) :
    Settled prog (s.step prog a) := by
  cases flag : s.inInstrumentation with
  | false => exact (quiet_step flag settled a clear).2
  | true =>
    cases a with
    | toggleOff => exact fun _ => clear flag
    | thread i =>
      intro off
      simp only [Process.step] at off
      split at off <;> exact absurd off (by simp [flag])

theorem quiet_run {s : Process} (off : s.inInstrumentation = false) (settled : Settled prog s) (acts : List Act)
    (clear : Library.Meets (Process.step prog) (LateClear prog) s acts) :
    Quiet s (Library.run (Process.step prog) s acts) := by
  induction acts generalizing s with
  | nil => exact ⟨rfl,rfl⟩
  | cons a acts ih =>
    obtain ⟨same,settled'⟩ := quiet_step off settled a clear.1
    exact same.trans (ih (off_step off a) settled' clear.2)

/-- In every run of any number of threads under the condition, once the flag is cleared no
step patches code or starts the instrumentation of a function. -/
theorem quiet_after_toggle (prog : Program) (acts later : List Act)
    (off : (Library.run (Process.step prog) .initial acts).inInstrumentation = false)
    (clear : Library.Meets (Process.step prog) (LateClear prog) .initial (acts ++ later)) :
    Quiet (Library.run (Process.step prog) .initial acts)
      (Library.run (Process.step prog) .initial (acts ++ later)) := by
  obtain ⟨before,after⟩ := (Library.meets_append _ _).mp clear
  have settled : Settled prog (Library.run (Process.step prog) .initial acts) :=
    @Library.invariant_run Process Act (Process.step prog) (LateClear prog) (Settled prog)
      (fun _ a kept clear => settled_step kept a clear) _ _ (fun off => absurd off (by decide)) before
  rw [Library.run_append]
  exact quiet_run off settled later after

/-! A thread that is under way when the flag is cleared. -/

/-- Its next step, where an attempt patches the call block. -/
def alone (t : Nat) : Act := .thread ⟨t,.propel none,⟨true,none,true⟩⟩

/-- The thread alone comes to patch code, or its assertion fails. -/
def Patching (prog : Program) (t : Nat) (s : Process) : Prop :=
  ∃ n, (s.threads.shared.patches.length <
      (Library.run (Process.step prog) s (List.replicate n (alone t))).threads.shared.patches.length) ∨
    (Library.run (Process.step prog) s (List.replicate n (alone t))).threads.shared.aborted = true

theorem Patching.head {s : Process} {t : Nat} (same : (s.step prog (alone t)).threads.shared.patches =
    s.threads.shared.patches) (rest : Patching prog t (s.step prog (alone t))) : Patching prog t s := by
  obtain ⟨n,more⟩ := rest
  rw [same] at more
  exact ⟨n + 1,more⟩

variable (prog) in
theorem step_alone {s : Process} {t : Nat} {pc : Pc Nat} (alive : s.threads.shared.aborted = false)
    (here : s.threads.pc t = pc) (away : pc ≠ .idle) :
    (s.step prog (alone t)).threads.shared =
        (move prog s.threads.shared (.propel none) ⟨true,none,true⟩ pc).1 ∧
      (s.step prog (alone t)).threads.pc t =
        (move prog s.threads.shared (.propel none) ⟨true,none,true⟩ pc).2 := by
  have goes : s.refuses ⟨t,.propel none,⟨true,none,true⟩⟩ = false := by
    simp only [Process.refuses,here]
    cases pc <;> first | exact absurd rfl away | exact Bool.and_false _
  simp only [Process.step,alone,goes,Bool.false_eq_true,if_false]
  rw [step_eq alive,here]
  exact ⟨rfl,State.set_self ..⟩

theorem trying_patches {g : Go} {p i n : Nat} {s : Process} {t : Nat} (alive : s.threads.shared.aborted = false)
    (here : s.threads.pc t = .trying g p i (n + 1)) : Patching prog t s := by
  obtain ⟨shared,_⟩ := step_alone prog alive here (by simp)
  refine ⟨1,.inl ?_⟩
  change _ < (s.step prog (alone t)).threads.shared.patches.length
  rw [shared]
  simp [move,patchesOf]

theorem running_patches {g : Go} {left : List Nat} {i : Nat} {s : Process} {t : Nat}
    (alive : s.threads.shared.aborted = false) (here : s.threads.pc t = .running g i)
    (ahead : s.threads.shared.commands.drop i = left) (tried : willTry prog s.threads.shared.instrumented left = true) :
    Patching prog t s := by
  induction left generalizing s i with
  | nil => cases tried
  | cons p left ih =>
    have next : s.threads.shared.commands[i]? = some p := by rw [← List.head?_drop,ahead,List.head?_cons]
    have behind : s.threads.shared.commands.drop (i + 1) = left := by rw [← List.tail_drop,ahead,List.tail_cons]
    obtain ⟨shared,pc⟩ := step_alone prog alive here (by simp)
    simp only [move,next] at shared pc
    have later : ∀ {s' : Process}, s'.threads.shared = s.threads.shared → s'.threads.pc t = .running g (i + 1) →
        tries prog s.threads.shared.instrumented p = false → Patching prog t s' := by
      intro s' same pc' out
      have tried' : willTry prog s.threads.shared.instrumented left = true := by simpa [willTry,out] using tried
      exact ih (by rwa [same]) pc' (by rwa [same]) (by rwa [same])
    split at pc
    next skipped =>
      rw [if_pos skipped] at shared
      exact .head (by rw [shared]) (later shared pc (by simp [tries,skipped]))
    next direct =>
      rw [if_neg direct] at shared
      split at pc
      next marked =>
        rw [if_pos marked] at shared
        refine ⟨1,.inr ?_⟩
        change (s.step prog (alone t)).threads.shared.aborted = true
        rw [shared]
      next unmarked =>
        rw [if_neg unmarked] at shared
        split at pc
        next tail =>
          rw [if_pos tail] at shared
          exact .head (by rw [shared]) (later shared pc (by simp [tries,tail]))
        next plain =>
          rw [if_neg plain] at shared
          apply Patching.head (by rw [shared])
          cases workers : prog.workers with
          | zero =>
            rw [workers] at pc
            obtain ⟨shared',pc'⟩ := step_alone prog (by rwa [shared]) pc (by simp)
            rw [shared] at shared'
            exact .head (by rw [shared',shared]; rfl) (later shared' pc' (by simp [tries,workers]))
          | succ n =>
            rw [workers] at pc
            exact trying_patches (by rwa [shared]) pc

theorem checking_patches {g : Go} {rest commands : List Nat} {s : Process} {t : Nat}
    (alive : s.threads.shared.aborted = false) (here : s.threads.pc t = .checking g rest commands)
    (tried : willTry prog s.threads.shared.instrumented
      (prog.commit s.threads.shared.commands (commands ++ toQueue prog s.threads.shared.instrumented g rest)) = true) :
    Patching prog t s := by
  induction rest generalizing s commands with
  | nil =>
    obtain ⟨shared,pc⟩ := step_alone prog alive here (by simp)
    rw [toQueue,List.filter_nil,List.append_nil] at tried
    exact .head (by rw [shared]; rfl) (running_patches (by rw [shared]; exact alive) pc rfl (by rw [shared]; exact tried))
  | cons p rest ih =>
    obtain ⟨shared,pc⟩ := step_alone prog alive here (by simp)
    simp only [move] at shared pc
    split at pc
    next marked =>
      rw [if_pos marked] at shared
      refine .head (by rw [shared]) (ih (by rwa [shared]) pc ?_)
      rw [shared]
      simpa [toQueue,marked] using tried
    next unmarked =>
      rw [if_neg unmarked] at shared
      split at pc
      next asked =>
        rw [if_pos asked] at shared
        apply Patching.head (by rw [shared])
        obtain ⟨shared',pc'⟩ := step_alone prog (by rwa [shared]) pc (by simp)
        rw [shared] at shared'
        refine .head (by rw [shared',shared]; rfl) (ih (by rw [shared']; exact alive) pc' ?_)
        rw [shared']
        simpa [toQueue,unmarked,asked,move] using tried
      next other =>
        rw [if_neg other] at shared
        refine .head (by rw [shared]) (ih (by rwa [shared]) pc ?_)
        rw [shared]
        simpa [toQueue,other] using tried

/-- The condition is needed: a busy thread that is in `go` at the toggle patches code when it is
let run, unless the assertion ends the process first. -/
theorem under_way_patches {s : Process} {t : Nat} (alive : s.threads.shared.aborted = false)
    (inside : (s.threads.pc t).go.isSome = true)
    (left : busy prog s.threads.shared (s.threads.pc t) = true) : Patching prog t s := by
  cases here : s.threads.pc t with
  | idle | returned | unlocking => simp [here,busy] at left
  | spinning | acquired => simp [here,Pc.go] at inside
  | checking g rest commands =>
    rw [here] at left
    exact checking_patches alive here left
  | setting g p rest commands =>
    obtain ⟨shared,pc⟩ := step_alone prog alive here (by simp)
    refine .head (by rw [shared]; rfl) (checking_patches (by rw [shared]; exact alive) pc ?_)
    rw [shared]
    simpa [here,busy,move] using left
  | running g i =>
    rw [here] at left
    exact running_patches alive here rfl left
  | trying g p i workers =>
    cases workers with
    | zero =>
      obtain ⟨shared,pc⟩ := step_alone prog alive here (by simp)
      refine .head (by rw [shared]; rfl) (running_patches (by rw [shared]; exact alive) pc rfl ?_)
      rw [shared]
      simpa [here,busy,move] using left
    | succ n => exact trying_patches alive here
  | marking g p i =>
    obtain ⟨shared,pc⟩ := step_alone prog alive here (by simp)
    rw [here] at left
    refine .head (by rw [shared]; rfl) (running_patches (by rw [shared]; exact alive) pc rfl ?_)
    rw [shared]
    exact left

end

def actsOf (tid : Nat) (caller : Caller) (n : Nat) : List Act := (steps tid caller n).map .thread

/-- A payload that has read the flag waits for the lock when the program enters exit. -/
def lateRun : List Act := actsOf 0 (.propel (some 0)) 1 ++ [.toggleOff]

/-- It then patches the function's calls, and so does a thread created by an exit handler. -/
theorem late_patched : (Library.run (Process.step oneCall) .initial lateRun).inInstrumentation = false ∧
    ¬Quiet (Library.run (Process.step oneCall) .initial lateRun)
      (Library.run (Process.step oneCall) .initial (lateRun ++ actsOf 0 (.propel (some 0)) 8)) ∧
    ¬Quiet (Library.run (Process.step oneCall) .initial [.toggleOff])
      (Library.run (Process.step oneCall) .initial ([.toggleOff] ++ actsOf 1 (.beforeEntry (some 0)) 8)) := by
  refine ⟨by decide,fun quiet => ?_,fun quiet => ?_⟩
  · exact absurd quiet.patches (by decide)
  · exact absurd quiet.patches (by decide)

/-- The payload is back before the toggle; after it another one is refused. -/
def timelyRun : List Act := actsOf 0 (.propel (some 0)) 12 ++ [.toggleOff]

theorem lateClear_actsOf (prog : Program) {s : Process} (on : s.inInstrumentation = true) (tid : Nat)
    (caller : Caller) (n : Nat) :
    Library.Meets (Process.step prog) (LateClear prog) s (actsOf tid caller n) ∧
      (Library.run (Process.step prog) s (actsOf tid caller n)).inInstrumentation = true ∧
      ∀ t, t ≠ tid →
        (Library.run (Process.step prog) s (actsOf tid caller n)).threads.pc t = s.threads.pc t := by
  induction n generalizing s with
  | zero => exact ⟨trivial,on,fun _ _ => rfl⟩
  | succ n ih =>
    have runs : (s.step prog (.thread ⟨tid,caller,⟨true,none,true⟩⟩)).threads =
        step prog s.threads ⟨tid,caller,⟨true,none,true⟩⟩ ∧
        (s.step prog (.thread ⟨tid,caller,⟨true,none,true⟩⟩)).inInstrumentation = true := by
      simp [Process.step,Process.refuses,on]
    obtain ⟨clear,still,others⟩ := ih runs.2
    refine ⟨⟨fun off => absurd off (by simp [on]),clear⟩,still,fun t other => (others t other).trans ?_⟩
    rw [runs.1]
    simp only [step]
    split
    · rfl
    · simp [other]

theorem quiet_after_toggle_timely : Quiet (Library.run (Process.step oneCall) .initial timelyRun)
    (Library.run (Process.step oneCall) .initial (timelyRun ++ actsOf 1 (.propel (some 0)) 3)) := by
  obtain ⟨before,_,others⟩ := @lateClear_actsOf oneCall .initial rfl 0 (.propel (some 0)) 12
  refine quiet_after_toggle oneCall timelyRun _ (by decide) ?_
  refine (Library.meets_append _ _).mpr ⟨(Library.meets_append _ _).mpr ⟨before,fun _ t => ?_,trivial⟩,?_⟩
  · rcases eq_or_ne t 0 with rfl | other
    · decide
    · rw [others t other]
      rfl
  · exact ⟨fun _ asked => absurd asked (by decide),fun _ asked => absurd asked (by decide),
      fun _ asked => absurd asked (by decide),trivial⟩

end SelfPropelled.Propagation
