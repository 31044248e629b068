import SelfPropelled.Coverage
import SelfPropelled.Library.Progress

/-! The global lock as `Lock` and `Unlock` implement it: a test-and-set, and a loop that only
reads while the lock is taken. -/

namespace SelfPropelled.Propagation

/-- The threads, and which of them are in the inner loop of `Lock`. -/
structure Spinning where
  state : State Nat
  reading : Nat → Bool

def Spinning.initial : Spinning := ⟨.initial,fun _ => false⟩

/-- A test-and-set that finds the lock taken sets it again and leads to the inner loop. -/
def Spinning.step (prog : Program) (s : Spinning) (i : Input) : Spinning :=
  match s.state.pc i.tid with
  | .spinning _ =>
    if s.state.shared.aborted then s
    else if s.reading i.tid then
      if s.state.shared.lock then s else {s with reading := Function.update s.reading i.tid false}
    else if s.state.shared.lock then {s with reading := Function.update s.reading i.tid true}
    else {s with state := Propagation.step prog s.state i}
  | _ => {s with state := Propagation.step prog s.state i}

/-- How many steps of its own a thread inside has at most to take until it is out. -/
def need (prog : Program) : Pc (List Nat) → Nat
  | .idle | .spinning _ => 0
  | .unlocking => 1
  | .returned _ => 2
  | .running _ commands => 3 + commands.length * (prog.workers + 3)
  | .trying _ _ commands n => n + 5 + commands.length * (prog.workers + 3)
  | .marking _ _ commands => 4 + commands.length * (prog.workers + 3)
  | .checking _ rest commands => 4 + 2 * rest.length + (commands.length + rest.length) * (prog.workers + 3)
  | .setting _ _ rest commands => 5 + 2 * rest.length + (commands.length + (rest.length + 1)) * (prog.workers + 3)
  | .acquired caller =>
    let points := (caller.func.map prog.nextPoints).getD []
    5 + 2 * points.length + points.length * (prog.workers + 3)

section
variable {prog : Program} {caller : Caller} {o : Outcome} {sh sh' : Shared} {pc pc' : Pc Nat} {s : State Nat}

theorem need_enter (prog : Program) (g : Go) :
    need prog (enter prog g) ≤ 4 + 2 * (prog.nextPoints g.func).length + (prog.nextPoints g.func).length * (prog.workers + 3) := by
  unfold enter
  split
  · simp [need]
  · simp only [need]
    omega

/-- Each step of a thread inside the lock brings it nearer to the end. -/
theorem Moves.need (moved : Moves prog caller o sh pc sh' pc') (fresh : ∀ g batch, pc = .checking g [] batch → sh.commands = [])
    (inside : pc.holds = true) :
    sh'.aborted = true ∨ need prog (pc'.ahead sh'.commands) < need prog (pc.ahead sh.commands) := by
  cases moved with
  | stay | call | event | acquire | registered => simp_all [Pc.holds]
  | fail => exact .inl rfl
  | walk named =>
    rename_i c f instCalls
    have func : c.func = some f := by rcases named with ⟨rfl,_⟩ | ⟨rfl,_⟩ | rfl <;> rfl
    have entered := need_enter prog ⟨true,f,instCalls⟩
    right
    rw [ahead_enter]
    simp only [Pc.ahead,Pc.map,Propagation.need,func,Option.map_some,Option.getD_some] at entered ⊢
    omega
  | commit =>
    right
    simp only [Pc.ahead,Pc.map,Propagation.need,fresh _ _ rfl,Program.commit_nil,List.drop_zero,List.length_nil,Nat.add_zero]
    omega
  | clear done =>
    right
    simp only [Pc.ahead,Pc.map,Propagation.need]
    omega
  | pass here | tryWorkers here =>
    right
    rw [ahead_running here]
    simp only [Pc.ahead,Pc.map,Propagation.need,List.length_cons,Nat.add_mul]
    omega
  | attempt =>
    right
    split <;> simp only [Pc.ahead,Pc.map,Propagation.need] <;> omega
  | nothing | skip | take | queue | giveUp | mark | propagated | unlock =>
    right
    simp only [Pc.ahead,Pc.map,Propagation.need,List.length_cons,List.length_append,List.length_nil,Nat.add_mul]
    omega

theorem need_pos {pc : Pc (List Nat)} (inside : pc.holds = true) : 0 < need prog pc := by
  cases pc with
  | idle | spinning => cases inside
  | _ =>
    simp only [need]
    omega

/-- A thread inside stays inside until it unlocks. -/
theorem Moves.stays (moved : Moves prog caller o sh pc sh' pc') (inside : pc.holds = true) :
    pc'.holds = true ∨ sh'.lock = false := by
  cases moved with
  | call | event | acquire | registered => simp_all [Pc.holds]
  | walk =>
    left
    unfold enter
    split <;> rfl
  | attempt =>
    left
    split <;> exact inside
  | unlock => exact .inr rfl
  | nothing | propagated => exact .inl rfl
  | stay | commit | skip | take | queue | clear | pass | fail | tryWorkers | giveUp | mark => exact .inl inside

/-- Whoever takes the lock is inside, and who leaves it frees it. -/
theorem Moves.held (moved : Moves prog caller o sh pc sh' pc') (taken : sh'.lock = true) :
    pc'.holds = true ∨ sh.lock = true ∧ pc.holds = false := by
  by_cases inside : pc.holds = true
  · exact .inl ((moved.stays inside).resolve_right (by simp [taken]))
  · rw [Bool.not_eq_true] at inside
    cases moved with
    | acquire => exact .inl rfl
    | unlock => cases taken
    | _ => exact .inr ⟨taken,inside⟩

/-- The lock is taken just when a thread is inside. -/
def Held (s : State Nat) : Prop := s.shared.lock = true → ∃ t, (s.pc t).holds = true

theorem Held.step (held : Held s) (i : Input) : Held (step prog s i) := by
  cases alive : s.shared.aborted with
  | true =>
    rw [Propagation.step,alive,if_pos rfl]
    exact held
  | false =>
    rw [step_eq alive]
    intro taken
    rcases (moves prog s.shared i.caller i.outcome (s.pc i.tid)).held taken with now | ⟨before,outside⟩
    · exact ⟨i.tid,by rwa [State.set_self]⟩
    · obtain ⟨t,inside⟩ := held before
      have other : t ≠ i.tid := by
        rintro rfl
        rw [outside] at inside
        cases inside
      exact ⟨t,by rwa [State.set_other s other]⟩

/-- The lock is never lost: whenever it is taken a thread is inside, and once that thread has
been scheduled as often as its work needs, in any order with others that commit no batch while
another run is under way, the lock was freed or the assertion has ended the process. -/
theorem lock_released (prog : Program) (inputs later : List Input)
    (solo : Library.Meets (step prog) (fun s i => Solo s i.tid) .initial (inputs ++ later)) :
    let s := Library.run (step prog) .initial inputs
    s.shared.lock = true → ∃ t, (s.pc t).holds = true ∧ (need prog (s.ahead.pc t) ≤ later.countP (fun i => i.tid == t) →
      ∃ first rest, later = first ++ rest ∧ ((Library.run (step prog) s first).shared.aborted = true ∨
        (Library.run (step prog) s first).shared.lock = false)) := by
  intro s taken
  obtain ⟨before,after⟩ := (Library.meets_append _ _).mp solo
  have exclusive : Exclusive s :=
    @Library.invariant_run (State Nat) Input (step prog) (fun s i => Solo s i.tid) Exclusive
      (fun _ i kept solo => kept.step i solo) _ _ .initial before
  have held : Held s := Library.invariant_always _ (fun _ i kept => kept.step i) fun taken => by cases taken
  obtain ⟨t,inside⟩ := held taken
  refine ⟨t,inside,fun enough => ?_⟩
  apply Library.reaches (fun s i => Solo s i.tid) (fun s => Exclusive s ∧ (s.pc t).holds = true)
    (fun s => s.shared.aborted = true ∨ s.shared.lock = false) (fun s => need prog (s.ahead.pc t)) _ _ _ ⟨exclusive,inside⟩ after enough
  · intro s inv zero
    exact absurd zero (need_pos (by simpa [State.ahead] using inv.2)).ne'
  · intro s i inv alone undone mine
    obtain rfl : i.tid = t := by simpa using mine
    have alive : s.shared.aborted = false := by simpa using fun ended => undone (.inl ended)
    have moved := moves prog s.shared i.caller i.outcome (s.pc i.tid)
    have next : Exclusive (step prog s i) := inv.1.step i alone
    rw [step_eq alive] at next ⊢
    rcases moved.need (fun g batch here => inv.1.fresh alone here) inv.2 with ended | less
    · exact .inl (.inl ended)
    rcases moved.stays inv.2 with still | freed
    · refine .inr ⟨⟨next,by rwa [State.set_self]⟩,?_⟩
      rwa [moved.ahead inv.1 alone,State.set_self]
    · exact .inl (.inr freed)
  · intro s i inv alone undone mine
    have other : t ≠ i.tid := by
      rintro rfl
      simp at mine
    have alive : s.shared.aborted = false := by simpa using fun ended => undone (.inl ended)
    have moved := moves prog s.shared i.caller i.outcome (s.pc i.tid)
    have next : Exclusive (step prog s i) := inv.1.step i alone
    rw [step_eq alive] at next ⊢
    rw [moved.ahead inv.1 alone,State.set_other s other,State.set_other s.ahead other]
    exact .inr ⟨⟨next,inv.2⟩,le_rfl⟩

/-! The inner loop. -/

theorem Spinning.step_refines (prog : Program) (s : Spinning) (i : Input) :
    (s.step prog i).state = s.state ∨ (s.step prog i).state = Propagation.step prog s.state i := by
  unfold Spinning.step
  split
  · split_ifs
    · exact .inl rfl
    · exact .inl rfl
    · exact .inl rfl
    · exact .inl rfl
    · exact .inr rfl
  · exact .inr rfl

/-- With the lock as it is implemented, callers that take it patch each call block at most
once, and a patch leads to the snippet its point still has; the attempts are those of the
workers, and no call block is made a spring. -/
theorem spinning_patched_once (prog : Program) (inputs : List Input)
    (locks : ∀ i ∈ inputs, i.caller.locks = true ∧ i.outcome.Made ∧ ∀ b, i.outcome.spring = some b → ∀ q, prog.block q ≠ b) :
    let s := (Library.run (Spinning.step prog) .initial inputs).state
    Mutex s ∧ (∀ q, (s.shared.patches.filter fun P => P.block == prog.block q).length ≤ 1) ∧
      (∀ P ∈ s.shared.patches, s.shared.snip P.pt = P.snip) ∧ s.shared.aborted = false := by
  intro s
  obtain ⟨seen,sub,same⟩ := Library.run_refines Spinning.state (fun s i => s.step_refines prog i) .initial inputs
  have s_eq : s = Library.run (step prog) .initial seen := same
  have clear : Library.Meets (step prog) (Clear prog) .initial seen := by
    refine meets_of_locks (fun _ => rfl) fun i listed => ?_
    obtain ⟨lock,made,hosts⟩ := locks i (sub.subset listed)
    exact ⟨lock,made.whole,hosts⟩
  have kept : Inv prog s.ahead ∧ Exclusive s := by
    rw [s_eq]
    exact @Library.invariant_run (State Nat) Input (step prog) (Clear prog) (fun s => Inv prog s.ahead ∧ Exclusive s)
      (fun _ i kept clear => ⟨kept.1.step kept.2 i clear,kept.2.step i clear.2.1⟩) _ _ ⟨.initial,.initial⟩ clear
  exact ⟨kept.2.mutex,kept.1.once,kept.1.snip,kept.1.alive⟩

/-- Two threads come for the lock at once; the second spins until the first is done. -/
def contended : List Input :=
  steps 0 (.propel (some 0)) 2 ++ steps 1 (.beforeEntry (some 0)) 4 ++ steps 0 (.propel (some 0)) 14 ++
    steps 1 (.beforeEntry (some 0)) 9

theorem mem_contended {i : Input} (listed : i ∈ contended) : i.caller.locks = true ∧ i.outcome = ⟨true,none,true⟩ := by
  simp only [contended,steps,List.mem_append,List.mem_replicate] at listed
  rcases listed with ((⟨_,rfl⟩ | ⟨_,rfl⟩) | ⟨_,rfl⟩) | ⟨_,rfl⟩ <;> exact ⟨rfl,rfl⟩

theorem spinning_patched_once_contended :
    ((Library.run (Spinning.step oneCall) .initial contended).state.shared.patches.filter
      fun P => P.block == oneCall.block 0).length ≤ 1 ∧
    (Library.run (Spinning.step oneCall) .initial contended).state.shared.patches = [⟨0,0,1⟩] ∧
    (Library.run (Spinning.step oneCall) .initial (contended.take 6)).reading 1 = true := by
  have locks : ∀ i ∈ contended, i.caller.locks = true ∧ i.outcome.Made ∧ ∀ b, i.outcome.spring = some b → ∀ q, oneCall.block q ≠ b := by
    intro i listed
    obtain ⟨lock,outcome⟩ := mem_contended listed
    rw [outcome]
    exact ⟨lock,made_nearCall,by simp⟩
  exact ⟨(spinning_patched_once oneCall contended locks).2.1 0,by decide,by decide⟩

theorem lock_released_contended :
    (Library.run (step oneCall) .initial (contended.take 6)).shared.lock = true ∧
    ∃ first rest, contended.drop 6 = first ++ rest ∧
      ((Library.run (step oneCall) (Library.run (step oneCall) .initial (contended.take 6)) first).shared.aborted = true ∨
        (Library.run (step oneCall) (Library.run (step oneCall) .initial (contended.take 6)) first).shared.lock = false) := by
  have taken : (Library.run (step oneCall) .initial (contended.take 6)).shared.lock = true := by decide
  have mutex : Mutex (Library.run (step oneCall) .initial (contended.take 6)) :=
    Library.invariant_always _ (fun _ i kept => kept.step i) .initial
  have clear : Library.Meets (step oneCall) (Clear oneCall) .initial contended := by
    refine meets_of_locks (fun _ => rfl) fun i listed => ?_
    obtain ⟨lock,outcome⟩ := mem_contended listed
    rw [outcome]
    exact ⟨lock,fun _ => rfl,by simp⟩
  rw [← List.take_append_drop 6 contended] at clear
  obtain ⟨t,inside,leaves⟩ := lock_released oneCall (contended.take 6) (contended.drop 6) (clear.mono _ _ fun _ _ c => c.2.1) taken
  obtain rfl := mutex.one t 0 inside (by decide)
  exact ⟨taken,leaves (by decide)⟩

end

end SelfPropelled.Propagation
