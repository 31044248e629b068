import SelfPropelled.Library.Run
import SelfPropelled.PayloadStack

/-! Payload wrappers of several threads: every thread has its own stack, all of
them share the flag `inTramp`, and any thread may run between two accesses. -/

namespace SelfPropelled.Payload
open Library

structure Threads where
  inTramp : Bool
  threads : Nat → Thread

def interleave (c : Context) (s : Threads) (tid : Nat) : Threads :=
  let moved := threadStep c s.inTramp (s.threads tid)
  ⟨moved.1,fun t => if t = tid then moved.2 else s.threads t⟩

def Threads.initial (programs : Nat → List Invocation) : Threads :=
  ⟨false,fun t => .initial (programs t)⟩

/-- Between the guard's constructor and its destructor. -/
def Pc.guarded : Pc → Bool
  | .body | .running | .push | .pop | .leave => true
  | .test | .guardRead | .guardSet => false

def Thread.holds (th : Thread) : Bool := th.frames.any (·.pc.guarded)

/-- The thread's next step reads the flag or takes the guard. -/
def Thread.accesses (th : Thread) : Bool :=
  th.failed.isNone && (th.frames.head?.map fun f => !f.pc.guarded).getD false

/-- No other thread is inside its guard when this one comes to the flag. -/
def Exclusive (s : Threads) (tid : Nat) : Prop :=
  (s.threads tid).accesses = true → ∀ u, u ≠ tid → (s.threads u).holds = false

/-- The shapes of a thread whose payloads' own calls are ignored. -/
def Thread.Tidy (th : Thread) : Prop :=
  th.frames = [] ∨ (∃ f, th.frames = [f]) ∨
    ∃ call f, th.frames = [Frame.start call,f] ∧ f.pc = .running

/-- Alone, a thread finds in the flag whether it holds the guard itself. -/
structure Alone (s : Bool × Thread) : Prop where
  flag : s.1 = s.2.holds
  tidy : s.2.Tidy
  clean : s.2.failed ≠ some .guardError

theorem Alone.initial (program : List Invocation) : Alone (false,.initial program) :=
  ⟨rfl,.inl rfl,by simp [Thread.initial]⟩

private theorem alone_wrapper (c : Context) (f : Frame) (todo : List Invocation)
    (stack : List PointCallHandle) (log : List Action) :
    Alone (wrapperStep c f.pc.guarded ⟨[f],todo,stack,log,none⟩ f []) := by
  obtain ⟨inv,pc,handle,inner,popped⟩ := f
  cases pc with
  | test => exact ⟨rfl,.inr (.inl ⟨_,rfl⟩),by simp [wrapperStep,Pc.guarded]⟩
  | guardRead => exact ⟨rfl,.inr (.inl ⟨_,rfl⟩),by simp [wrapperStep,Pc.guarded]⟩
  | guardSet => cases inv <;> exact ⟨rfl,.inr (.inl ⟨_,rfl⟩),by simp [wrapperStep]⟩
  | body => cases inv <;> exact ⟨rfl,.inr (.inl ⟨_,rfl⟩),by simp [wrapperStep]⟩
  | running =>
    cases inner with
    | cons call inner => exact ⟨rfl,.inr (.inr ⟨call,_,rfl,rfl⟩),by simp [wrapperStep]⟩
    | nil =>
      cases inv with
      | entry call calls => exact ⟨rfl,.inr (.inl ⟨_,rfl⟩),by simp [wrapperStep]⟩
      | exit pt ret calls =>
        by_cases more : pt ≠ handle.pt
        · refine ⟨?_,.inr (.inl ⟨_,rfl⟩),by simp [wrapperStep]⟩
          simp [wrapperStep,more,Thread.holds,Pc.guarded]
        · refine ⟨?_,.inr (.inl ⟨_,rfl⟩),by simp [wrapperStep]⟩
          simp [wrapperStep,more,Thread.holds,Pc.guarded]
  | push => exact ⟨rfl,.inr (.inl ⟨_,rfl⟩),by simp [wrapperStep]⟩
  | pop =>
    cases inv with
    | entry call calls => exact ⟨rfl,.inr (.inl ⟨_,rfl⟩),by simp [wrapperStep]⟩
    | exit pt ret calls =>
      cases stack with
      | nil => exact ⟨rfl,.inr (.inl ⟨_,rfl⟩),by simp [wrapperStep]⟩
      | cons h stack => exact ⟨rfl,.inr (.inl ⟨_,rfl⟩),by simp [wrapperStep]⟩
  | leave => exact ⟨rfl,.inl rfl,by simp [wrapperStep]⟩

theorem Alone.step (c : Context) {s : Bool × Thread} (alone : Alone s) : Alone (soloStep c s) := by
  obtain ⟨flag,⟨frames,todo,stack,log,failed⟩⟩ := s
  obtain ⟨same,tidy,clean⟩ := alone
  cases failed with
  | some f => exact ⟨same,tidy,clean⟩
  | none =>
    simp only [Thread.holds] at same
    simp only [Thread.Tidy] at tidy
    subst same
    rcases tidy with rfl | ⟨f,rfl⟩ | ⟨call,f,rfl,running⟩
    · cases todo with
      | nil => exact ⟨rfl,.inl rfl,clean⟩
      | cons call todo => exact ⟨rfl,.inr (.inl ⟨_,rfl⟩),clean⟩
    · have own : ([f].any fun f => f.pc.guarded) = f.pc.guarded := by simp
      simp only [own]
      exact alone_wrapper c f todo stack log
    · -- a call made inside a payload finds the flag set and returns
      have set : ([Frame.start call,f].any fun f => f.pc.guarded) = true := by
        simp [Frame.start,running,Pc.guarded]
      simp only [set]
      exact ⟨by simp [soloStep,threadStep,wrapperStep,Frame.start,Thread.holds,running,Pc.guarded],
        .inr (.inl ⟨f,rfl⟩),clean⟩

theorem threadStep_free (c : Context) (th : Thread) (free : th.accesses = false) (g : Bool) :
    (threadStep c g th).2 = (threadStep c th.holds th).2 ∧
      ((threadStep c g th).1 = g ∧ (threadStep c th.holds th).1 = th.holds ∨
        (threadStep c g th).1 = false ∧ (threadStep c th.holds th).1 = false ∧ th.holds = true) := by
  obtain ⟨frames,todo,stack,log,failed⟩ := th
  cases failed with
  | some f => exact ⟨rfl,.inl ⟨rfl,rfl⟩⟩
  | none =>
    cases frames with
    | nil => cases todo <;> exact ⟨rfl,.inl ⟨rfl,rfl⟩⟩
    | cons f rest =>
      obtain ⟨inv,pc,handle,inner,popped⟩ := f
      cases pc with
      | test | guardRead | guardSet => simp [Thread.accesses,Pc.guarded] at free
      | body => cases inv <;> exact ⟨rfl,.inl ⟨rfl,rfl⟩⟩
      | running =>
        cases inner with
        | cons call inner => exact ⟨rfl,.inl ⟨rfl,rfl⟩⟩
        | nil => cases inv <;> exact ⟨rfl,.inl ⟨rfl,rfl⟩⟩
      | push => exact ⟨rfl,.inl ⟨rfl,rfl⟩⟩
      | pop =>
        cases inv with
        | entry call calls => exact ⟨rfl,.inl ⟨rfl,rfl⟩⟩
        | exit pt ret calls => cases stack <;> exact ⟨rfl,.inl ⟨rfl,rfl⟩⟩
      | leave => exact ⟨rfl,.inr ⟨rfl,rfl,rfl⟩⟩

/-- The shared machine and every thread alone are in step with each other. -/
structure Simulates (s : Threads) (solo : Nat → Bool × Thread) : Prop where
  thread : ∀ t, s.threads t = (solo t).2
  alone : ∀ t, Alone (solo t)
  flag : s.inTramp = true ↔ ∃ t, (solo t).2.holds = true
  single : ∀ t u, (solo t).2.holds = true → (solo u).2.holds = true → t = u

theorem Simulates.initial (programs : Nat → List Invocation) :
    Simulates (.initial programs) fun t => (false,.initial (programs t)) where
  thread := fun _ => rfl
  alone := fun t => .initial (programs t)
  flag := by simp [Threads.initial,Thread.initial,Thread.holds]
  single := fun t u held => by simp [Thread.initial,Thread.holds] at held

/-- Under the condition the thread that moves finds in the flag what it would find alone. -/
theorem Simulates.sees {s : Threads} {solo : Nat → Bool × Thread} (sim : Simulates s solo) {tid : Nat}
    (exclusive : Exclusive s tid) (access : (solo tid).2.accesses = true) :
    s.inTramp = (solo tid).2.holds := by
  have others : ∀ u, u ≠ tid → (solo u).2.holds = false := by
    intro u other
    rw [← sim.thread u]
    exact exclusive (by rw [sim.thread]; exact access) u other
  cases own : (solo tid).2.holds with
  | true => exact sim.flag.mpr ⟨tid,own⟩
  | false =>
    refine Bool.eq_false_iff.mpr fun set => ?_
    obtain ⟨u,held⟩ := sim.flag.mp set
    by_cases here : u = tid
    · rw [here,own] at held
      cases held
    · rw [others u here] at held
      cases held

/-- What the shared step makes of the flag: nobody else holds the guard, or it stays as it is. -/
theorem Simulates.moved (c : Context) {s : Threads} {solo : Nat → Bool × Thread}
    (sim : Simulates s solo) {tid : Nat} (exclusive : Exclusive s tid) :
    (threadStep c s.inTramp (solo tid).2).2 = (soloStep c (solo tid)).2 ∧
      (((threadStep c s.inTramp (solo tid).2).1 = (soloStep c (solo tid)).2.holds ∧
        ∀ u, u ≠ tid → (solo u).2.holds = false) ∨
      ((threadStep c s.inTramp (solo tid).2).1 = s.inTramp ∧
        (soloStep c (solo tid)).2.holds = (solo tid).2.holds)) := by
  have alone := (sim.alone tid).step c
  have solo_step : soloStep c (solo tid) = threadStep c (solo tid).2.holds (solo tid).2 := by
    rw [soloStep,(sim.alone tid).flag]
  cases access : (solo tid).2.accesses with
  | true =>
    have sees := sim.sees exclusive access
    rw [sees,← solo_step]
    refine ⟨rfl,.inl ⟨alone.flag,fun u other => ?_⟩⟩
    rw [← sim.thread u]
    exact exclusive (by rw [sim.thread]; exact access) u other
  | false =>
    obtain ⟨th,moved⟩ := threadStep_free c (solo tid).2 access s.inTramp
    rw [← solo_step] at th moved
    refine ⟨th,?_⟩
    rcases moved with ⟨kept,own⟩ | ⟨released,own,held⟩
    · exact .inr ⟨kept,by rw [← alone.flag,own]⟩
    · refine .inl ⟨by rw [released,← alone.flag,own],fun u other => ?_⟩
      exact Bool.eq_false_iff.mpr fun also => other (sim.single u tid also held)

theorem Simulates.step (c : Context) {s : Threads} {solo : Nat → Bool × Thread}
    (sim : Simulates s solo) {tid : Nat} (exclusive : Exclusive s tid) :
    Simulates (interleave c s tid) (Function.update solo tid (soloStep c (solo tid))) := by
  obtain ⟨same,flag⟩ := sim.moved c exclusive
  have own : Function.update solo tid (soloStep c (solo tid)) tid = soloStep c (solo tid) :=
    Function.update_self ..
  have other : ∀ t, t ≠ tid → Function.update solo tid (soloStep c (solo tid)) t = solo t :=
    fun t here => Function.update_of_ne here ..
  have moved : (interleave c s tid).inTramp = (threadStep c s.inTramp (solo tid).2).1 := by
    simp [interleave,sim.thread]
  -- who holds the guard afterwards: if anybody else may, they are the ones who held it before
  have holds : (∀ t, t ≠ tid → (solo t).2.holds = false) ∨
      ∀ t, (Function.update solo tid (soloStep c (solo tid)) t).2.holds = (solo t).2.holds := by
    rcases flag with ⟨_,others⟩ | ⟨_,kept⟩
    · exact .inl others
    · refine .inr fun t => ?_
      by_cases here : t = tid
      · rw [here,own,kept]
      · rw [other t here]
  refine ⟨fun t => ?_,fun t => ?_,?_,fun t u first second => ?_⟩
  · by_cases here : t = tid
    · subst here
      simp [interleave,sim.thread,same]
    · simp [interleave,here,sim.thread]
  · by_cases here : t = tid
    · rw [here,own]
      exact (sim.alone tid).step c
    · rw [other t here]
      exact sim.alone t
  · rw [moved]
    rcases flag with ⟨now,others⟩ | ⟨now,kept⟩
    · rw [now]
      refine ⟨fun held => ⟨tid,by rwa [own]⟩,fun ⟨t,held⟩ => ?_⟩
      by_cases here : t = tid
      · rwa [here,own] at held
      · rw [other t here,others t here] at held
        cases held
    · rw [now,sim.flag]
      refine exists_congr fun t => ?_
      by_cases here : t = tid
      · rw [here,own,kept]
      · rw [other t here]
  · rcases holds with others | same
    · have mine : ∀ v, (Function.update solo tid (soloStep c (solo tid)) v).2.holds = true → v = tid := by
        intro v held
        by_contra here
        rw [other v here,others v here] at held
        cases held
      rw [mine t first,mine u second]
    · exact sim.single t u (same t ▸ first) (same u ▸ second)

theorem Simulates.run (c : Context) {s : Threads} {solo : Nat → Bool × Thread} {schedule : List Nat}
    (sim : Simulates s solo) (met : Meets (interleave c) Exclusive s schedule) :
    Simulates (run (interleave c) s schedule) fun t => (soloStep c)^[schedule.count t] (solo t) := by
  induction schedule generalizing s solo with
  | nil => simpa using sim
  | cons tid rest ih =>
    have after := ih (sim.step c met.1) met.2
    have counts : (fun t => (soloStep c)^[(tid :: rest).count t] (solo t)) = fun t =>
        (soloStep c)^[rest.count t] (Function.update solo tid (soloStep c (solo tid)) t) := by
      funext t
      by_cases here : t = tid
      · subst here
        simp
      · have other : tid ≠ t := fun same => here same.symm
        simp [here,other]
    rw [counts]
    exact after

theorem Simulates.skips {s : Threads} {solo : Nat → Bool × Thread} (sim : Simulates s solo) {tid : Nat}
    (exclusive : Exclusive s tid) {f : Frame} {rest : List Frame} (test : f.pc = .test)
    (frames : (s.threads tid).frames = f :: rest) (running : (s.threads tid).failed = none) :
    s.inTramp = true ↔ rest ≠ [] := by
  have access : (s.threads tid).accesses = true := by
    simp [Thread.accesses,frames,running,test,Pc.guarded]
  rw [sim.sees exclusive (by rw [← sim.thread]; exact access),← sim.thread]
  have tidy := (sim.alone tid).tidy
  rw [← sim.thread] at tidy
  simp only [Thread.Tidy,frames] at tidy
  rcases tidy with none | ⟨g,one⟩ | ⟨call,g,two,busy⟩
  · cases none
  · cases one
    simp [Thread.holds,frames,test,Pc.guarded]
  · cases two
    simp [Thread.holds,frames,Frame.start,busy,Pc.guarded]

/-- What no interleaving changes for one thread: it is where it would be alone
after as many steps, its guard's assertion has not failed, its next early
return is the one of a call from inside its own payload, and with well-nested
calls it has not popped an empty stack. -/
structure Undisturbed (c : Context) (program : List Invocation) (s : Threads) (tid steps : Nat) :
    Prop where
  thread : s.threads tid = ((soloStep c)^[steps] (false,.initial program)).2
  guard : (s.threads tid).failed ≠ some .guardError
  skips : Exclusive s tid → ∀ f rest, (s.threads tid).frames = f :: rest → f.pc = .test →
    (s.threads tid).failed = none → (s.inTramp = true ↔ rest ≠ [])
  stack : ∀ (tailcall : Point → Bool) (t : CallTree), t.Consistent tailcall → program = t.events →
    (s.threads tid).failed = none

/-- Threads do not disturb each other's payload calls in any interleaving in
which a thread comes to the flag only while no other thread is in its guard. -/
theorem threads_undisturbed (c : Context) (programs : Nat → List Invocation) (schedule : List Nat)
    (met : Meets (interleave c) Exclusive (.initial programs) schedule) (tid : Nat) :
    Undisturbed c (programs tid) (run (interleave c) (.initial programs) schedule) tid
      (schedule.count tid) := by
  have sim := (Simulates.initial programs).run c met
  have thread := sim.thread tid
  refine ⟨thread,?_,fun exclusive f rest frames test running =>
    sim.skips exclusive test frames running,fun tailcall t ok events => ?_⟩
  · rw [thread]
    exact (sim.alone tid).clean
  · have whole : Reaches c (idle t.events [] []) (idle [] (t.pending c) (t.trace c)) := by
      simpa using tree_runs c t ok [] [] []
    rw [thread,events]
    exact Reaches.not_failed whole _

/-- The condition where only threads 0 and 1 run. -/
def ExclusivePair (s : Threads) (tid : Nat) : Prop :=
  tid < 2 ∧ ((s.threads tid).accesses = true → (s.threads (1 - tid)).holds = false)

instance (s : Threads) (tid : Nat) : Decidable (ExclusivePair s tid) :=
  inferInstanceAs (Decidable (_ ∧ _))

theorem ExclusivePair.exclusive {s : Threads} {tid : Nat} (pair : ExclusivePair s tid)
    (quiet : ∀ u, 2 ≤ u → (s.threads u).holds = false) : Exclusive s tid := by
  intro access u other
  by_cases two : 2 ≤ u
  · exact quiet u two
  · obtain rfl : u = 1 - tid := by
      have small := pair.1
      omega
    exact pair.2 access

theorem meets_pair (c : Context) {schedule : List Nat} {s : Threads}
    (quiet : ∀ u, 2 ≤ u → (s.threads u).holds = false) (met : Meets (interleave c) ExclusivePair s schedule) :
    Meets (interleave c) Exclusive s schedule ∧
      ∀ u, 2 ≤ u → ((run (interleave c) s schedule).threads u).holds = false := by
  induction schedule generalizing s with
  | nil => exact ⟨trivial,quiet⟩
  | cons tid rest ih =>
    obtain ⟨here,later⟩ := met
    have still : ∀ u, 2 ≤ u → ((interleave c s tid).threads u).holds = false := by
      intro u two
      have other : u ≠ tid := fun same => absurd here.1 (by omega)
      simpa [interleave,other] using quiet u two
    obtain ⟨more,idle⟩ := ih still later
    exact ⟨⟨here.exclusive quiet,more⟩,idle⟩

def twoCalls (tid : Nat) : List Invocation :=
  if tid < 2 then [.entry ⟨0,tid + 1,some 0,0⟩ [],.exit (tid + 1) 0 fun _ => []] else []

/-- Calls whose entry payload calls through a point itself. -/
def nestedCall (tid : Nat) : CallTree :=
  .call ⟨0,tid + 1,some 0,10⟩ 0 [.entry ⟨1,7,some 0,0⟩ []] (fun _ => []) .ret .ret

def nestedCalls (tid : Nat) : List Invocation := if tid < 2 then (nestedCall tid).events else []

/-- Thread 1 calls its wrapper while thread 0 is in its guard, and is in its payload's own
call when thread 0 calls the next wrapper. -/
def entangled : List Nat := [0,0,0,0,1,0,0,0,0,0,0,1,1,1,1,1,0]

theorem threads_undisturbed_entangled :
    let s := run (interleave plainContext) (.initial nestedCalls) entangled
    (s.threads 1).log = [.entryPayload ⟨0,2,some 0,0,0⟩] ∧ s.inTramp = true ∧ (s.threads 1).failed = none := by
  intro s
  have quiet : ∀ u, 2 ≤ u → ((Threads.initial nestedCalls).threads u).holds = false := fun _ _ => rfl
  obtain ⟨met,idle⟩ := @meets_pair plainContext entangled _ quiet (by decide +kernel)
  have kept := threads_undisturbed plainContext nestedCalls entangled met 1
  have tree : (nestedCall 1).Consistent fun _ => false := ⟨rfl,trivial,trivial⟩
  have running : (s.threads 1).failed = none := kept.stack (fun _ => false) (nestedCall 1) tree rfl
  have exclusive : Exclusive s 1 := ExclusivePair.exclusive (by decide +kernel) idle
  refine ⟨?_,(kept.skips exclusive _ _ rfl rfl running).mpr (by simp),running⟩
  rw [kept.thread]
  decide +kernel

/-- Thread 1 enters while thread 0 runs its payload and is skipped; its exit is not. -/
theorem threads_disturbed_twoCalls :
    (∀ tid < 2, ∃ t : CallTree, t.Consistent (fun _ => false) ∧ twoCalls tid = t.events) ∧
    ((run (interleave plainContext) (.initial twoCalls) (List.replicate 5 0 ++ List.replicate 2 1 ++
      List.replicate 3 0 ++ List.replicate 5 1)).threads 1).failed = some .emptyStack := by
  refine ⟨fun tid small => ⟨.call ⟨0,tid + 1,some 0,0⟩ 0 [] (fun _ => []) .ret .ret,
    ⟨rfl,trivial,trivial⟩,by rw [twoCalls,if_pos small]; rfl⟩,?_⟩
  rfl

end SelfPropelled.Payload
