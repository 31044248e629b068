import SelfPropelled.ExitToggle

/-! What propagation leaves behind. A function is marked as propagated when `go` has come to
its end: each of its call points is then patched, was given up by every worker, or is none
that `go` and `run` try. -/

namespace SelfPropelled.Propagation

/-- The process with the points all workers have failed on and the functions whose points
`go` has walked through without a filter. -/
structure Recorded where
  process : Process
  abandoned : List Nat
  walked : List Nat

def Recorded.initial : Recorded := ⟨.initial,[],[]⟩

def abandonedBy : Pc Nat → List Nat
  | .trying _ p _ 0 => [p]
  | _ => []

def walkedBy : Pc Nat → List Nat
  | .returned g => if g.instCalls.isNone then [g.func] else []
  | _ => []

/-- The points that are not settled yet. -/
def Pc.due (pc : Pc (List Nat)) : List Nat := pc.rest ++ pc.pending

/-- A worker that reports success has written to the call block. -/
def Outcome.Sure (o : Outcome) : Prop := o.ok = true → o.wrote = true

section
variable (prog : Program)

def Recorded.step (r : Recorded) (a : Act) : Recorded :=
  match a with
  | .toggleOff => {r with process := r.process.step prog .toggleOff}
  | .thread i =>
    if r.process.threads.shared.aborted then r
    else
      let pc := r.process.threads.pc i.tid
      ⟨r.process.step prog (.thread i),r.abandoned ++ abandonedBy pc,r.walked ++ walkedBy pc⟩

/-- Do `go` and `run` try the workers on the point? -/
def worth (p : Nat) : Bool :=
  (prog.callee p).all prog.canInstrument && !(!prog.getCallee p && prog.directcallOnly) &&
    !(prog.isBranch (prog.block p) && prog.noTailcall)

def settled (r : Recorded) (p : Nat) : Prop :=
  r.process.threads.shared.instrumented (prog.block p) = true ∨ p ∈ r.abandoned

/-- Each point of a function under way is due or settled, those of a walked function are settled. -/
structure Covered (r : Recorded) : Prop where
  underway : ∀ t g, (r.process.threads.pc t).go = some g → g.instCalls = none → prog.canInstrument g.func = true →
    ∀ p ∈ prog.nextPoints g.func, worth prog p = true → p ∈ (r.process.threads.ahead.pc t).due ∨ settled prog r p
  walked : ∀ f ∈ r.walked, prog.canInstrument f = true → ∀ p ∈ prog.nextPoints f, worth prog p = true → settled prog r p
  propagated : ∀ f, r.process.threads.shared.propagated f = true → f ∈ r.walked
  unfiltered : ∀ t g, (r.process.threads.pc t).go = some g → g.locked = true → g.instCalls = none
  locks : ∀ t caller, (r.process.threads.pc t).waiting = some caller → caller.locks = true

/-- Every mark has its patch, and what is being marked has one. -/
structure Written (s : State Nat) : Prop where
  marked : ∀ b, s.shared.instrumented b = true → ∃ P ∈ s.shared.patches, P.block = b ∧ prog.block P.pt = b
  marking : ∀ t, ∀ p ∈ (s.pc t).patched, ∃ P ∈ s.shared.patches, P.block = prog.block p ∧ prog.block P.pt = prog.block p

end

/-- No batch is committed while another thread is in `run`, unless both are inside the lock. -/
def Act.Solo (s : State Nat) : Act → Prop
  | .toggleOff => True
  | .thread i => Propagation.Solo s i.tid

section
variable {prog : Program} {caller : Caller} {o : Outcome} {sh sh' : Shared} {pc pc' : Pc Nat}

theorem due_enter {g : Go} (can : prog.canInstrument g.func = true) :
    (enter prog g).due = prog.nextPoints g.func := by
  simp [enter,can,Pc.due,Pc.rest,Pc.pending,Pc.patched,Pc.queued]

theorem mem_walkedBy {f : Nat} : f ∈ walkedBy pc ↔ ∃ g, pc = .returned g ∧ g.instCalls = none ∧ g.func = f := by
  cases pc with
  | returned g =>
    cases filtered : g.instCalls with
    | none => simp [walkedBy,filtered,eq_comm]
    | some named => simp [walkedBy,filtered]
  | _ => simp [walkedBy]

theorem interesting_of_worth {g : Go} (unfiltered : g.instCalls = none) {p : Nat} (good : worth prog p = true) :
    interesting prog g p = true := by
  simp only [worth,Bool.and_eq_true] at good
  unfold interesting
  cases known : prog.callee p with
  | none => simp [unfiltered]
  | some f =>
    have callee := good.1.1
    rw [known] at callee
    simpa [unfiltered] using callee

theorem tried_of_worth {p : Nat} (good : worth prog p = true) :
    ¬((!prog.getCallee p && prog.directcallOnly) = true ∨ (prog.isBranch (prog.block p) && prog.noTailcall) = true) := by
  simp only [worth,Bool.and_eq_true,Bool.not_eq_true'] at good
  rw [good.1.2,good.2]
  simp

/-- A point that is due stays so, or is marked, or every worker has failed on it. -/
theorem Moves.due {g : Go} (moved : Moves prog caller o sh pc sh' pc') (own : pc.go = some g) (unfiltered : g.instCalls = none)
    (fresh : ∀ g batch, pc = .checking g [] batch → sh.commands = []) {p : Nat} (good : worth prog p = true)
    (due : p ∈ (pc.ahead sh.commands).due) :
    p ∈ (pc'.ahead sh'.commands).due ∨ sh'.instrumented (prog.block p) = true ∨ p ∈ abandonedBy pc := by
  cases moved with
  | stay | call | event | acquire | nothing | walk | unlock => cases own
  | commit =>
    rename_i h batch
    have left : (Pc.running h 0).ahead (prog.commit sh.commands batch) = .running h batch := by
      rw [fresh h batch rfl,Program.commit_nil]
      rfl
    left
    rw [left]
    exact due
  | clear done =>
    have none : (Pc.running g _).ahead sh.commands = .running g [] := congrArg (Pc.running g) (drop_of_getElem?_none done)
    cases own
    rw [none] at due
    cases due
  | fail | propagated | registered => exact .inl due
  | skip out =>
    cases own
    rcases List.mem_cons.mp due with rfl | due
    · rw [interesting_of_worth unfiltered good] at out
      exact .inr (.inl (out.resolve_right (by decide)))
    · exact .inl due
  | take | queue =>
    exact .inl (by simpa [Pc.due,Pc.ahead,Pc.map,Pc.rest,Pc.pending,Pc.patched,Pc.queued,or_left_comm,or_comm] using due)
  | pass here out =>
    rw [ahead_running here] at due
    rcases List.mem_cons.mp due with rfl | due
    · exact absurd out (tried_of_worth good)
    · exact .inl due
  | tryWorkers here =>
    rw [ahead_running here] at due
    exact .inl due
  | giveUp =>
    rcases List.mem_cons.mp due with rfl | due
    · exact .inr (.inr List.mem_cons_self)
    · exact .inl due
  | attempt =>
    left
    split <;> exact due
  | mark =>
    rcases List.mem_cons.mp due with rfl | due
    · exact .inr (.inl (by simp))
    · exact .inl due

/-- A thread is in `go` after a step as it was before, or has just entered it. -/
theorem Moves.go {g : Go} (moved : Moves prog caller o sh pc sh' pc') (own : pc'.go = some g) :
    pc.go = some g ∨ pc' = enter prog g ∧
      ((pc = .idle ∧ g.locked = false ∧ caller = .registerEvent g.func g.instCalls) ∨
        ∃ c, pc.waiting = some c ∧ c.func = some g.func ∧ (c.locks = true → g.instCalls = none)) := by
  cases moved with
  | stay | call | acquire | nothing | propagated | registered | unlock => cases own
  | event named =>
    rw [go_enter] at own
    cases own
    exact .inr ⟨rfl,.inl ⟨rfl,rfl,named⟩⟩
  | walk named =>
    rw [go_enter] at own
    cases own
    refine .inr ⟨rfl,.inr ⟨_,rfl,?_⟩⟩
    rcases named with ⟨rfl,none,_⟩ | ⟨rfl,none⟩ | rfl
    · exact ⟨rfl,fun _ => none⟩
    · exact ⟨rfl,fun _ => none⟩
    · exact ⟨rfl,fun locks => by cases locks⟩
  | attempt =>
    left
    split at own <;> exact own
  | commit | skip | take | queue | clear | pass | fail | tryWorkers | giveUp | mark => exact .inl own

theorem Moves.waiting {c : Caller} (moved : Moves prog caller o sh pc sh' pc') (waits : pc'.waiting = some c) :
    pc.waiting = some c ∨ pc = .idle ∧ c = caller ∧ c.locks = true := by
  cases moved with
  | stay | acquire => exact .inl waits
  | call locks =>
    cases waits
    exact .inr ⟨rfl,rfl,locks⟩
  | event | walk =>
    rw [waiting_enter] at waits
    cases waits
  | attempt => split at waits <;> cases waits
  | nothing | commit | skip | take | queue | clear | pass | fail | tryWorkers | giveUp | mark | propagated | registered
  | unlock => cases waits

/-- Only the end of `go` inside the lock marks a function. -/
theorem Moves.propagated_by {f : Nat} (moved : Moves prog caller o sh pc sh' pc') (done : sh'.propagated f = true) :
    sh.propagated f = true ∨ ∃ g, pc = .returned g ∧ g.locked = true ∧ g.func = f := by
  cases moved with
  | propagated locked =>
    simp only [Bool.or_eq_true,beq_iff_eq] at done
    rcases done with rfl | old
    · exact .inr ⟨_,rfl,locked,rfl⟩
    · exact .inl old
  | _ => exact .inl done

theorem Moves.marked {b : Nat} (moved : Moves prog caller o sh pc sh' pc') (marked : sh.instrumented b = true) :
    sh'.instrumented b = true := by
  cases moved with
  | mark => simp [marked]
  | _ => exact marked

theorem Moves.patches (moved : Moves prog caller o sh pc sh' pc') : ∀ P ∈ sh.patches, P ∈ sh'.patches := by
  intro P listed
  cases moved with
  | attempt => exact List.mem_append_left _ listed
  | _ => exact listed

/-- Who comes to the mark has just succeeded. -/
theorem Moves.patched_by {p : Nat} (moved : Moves prog caller o sh pc sh' pc') (member : p ∈ pc'.patched) :
    o.ok = true ∧ ∃ snip, sh'.patches = sh.patches ++ patchesOf prog o p snip := by
  cases moved with
  | attempt =>
    split at member
    · rename_i ok
      cases List.mem_singleton.mp member
      exact ⟨ok,_,rfl⟩
    · cases member
  | event | walk =>
    rw [patched_enter] at member
    cases member
  | stay | call | acquire | nothing | commit | skip | take | queue | clear | pass | fail | tryWorkers | giveUp | mark
  | propagated | registered | unlock => cases member

theorem Moves.instrumented_by {b : Nat} (moved : Moves prog caller o sh pc sh' pc') (marked : sh'.instrumented b = true) :
    sh.instrumented b = true ∨ ∃ p ∈ pc.patched, prog.block p = b := by
  cases moved with
  | mark =>
    simp only [Bool.or_eq_true,beq_iff_eq] at marked
    rcases marked with rfl | old
    · exact .inr ⟨_,List.mem_cons_self,rfl⟩
    · exact .inl old
  | _ => exact .inl marked

end

section
variable {prog : Program} {r : Recorded} {s : State Nat}

/-- A step of the process leaves the threads as they are or is a step of one of them. -/
theorem Recorded.step_thread (r : Recorded) (prog : Program) (i : Input) :
    (r.step prog (.thread i) = r ∧ (r.process.threads.shared.aborted = true ∨ r.process.refuses i = true)) ∨
    ∃ sh pc, Moves prog i.caller i.outcome r.process.threads.shared (r.process.threads.pc i.tid) sh pc ∧
      (r.step prog (.thread i)).process.threads = r.process.threads.set i.tid (sh,pc) ∧
      (r.step prog (.thread i)).abandoned = r.abandoned ++ abandonedBy (r.process.threads.pc i.tid) ∧
      (r.step prog (.thread i)).walked = r.walked ++ walkedBy (r.process.threads.pc i.tid) := by
  cases alive : r.process.threads.shared.aborted with
  | true => exact .inl ⟨by simp [Recorded.step,alive],.inl rfl⟩
  | false =>
    cases refused : r.process.refuses i with
    | true =>
      left
      refine ⟨?_,.inr rfl⟩
      have idle : r.process.threads.pc i.tid = .idle := by
        unfold Process.refuses at refused
        cases here : r.process.threads.pc i.tid with
        | idle => rfl
        | _ => simp [here] at refused
      simp [Recorded.step,alive,Process.step,refused,idle,abandonedBy,walkedBy]
    | false =>
      right
      refine ⟨_,_,moves prog _ i.caller i.outcome _,?_⟩
      simp [Recorded.step,alive,Process.step,refused,step_eq alive]

theorem Covered.initial : Covered prog .initial where
  underway _ _ own := by cases own
  walked _ member := by cases member
  propagated _ done := by cases done
  unfiltered _ _ own := by cases own
  locks _ _ waits := by cases waits

theorem Recorded.exclusive_step (exclusive : Exclusive r.process.threads) (a : Act) (solo : a.Solo r.process.threads) :
    Exclusive (r.step prog a).process.threads := by
  cases a with
  | toggleOff => exact exclusive
  | thread i =>
    rcases r.step_thread prog i with ⟨same,_⟩ | ⟨sh,pc,moved,threads,_⟩
    · rw [same]
      exact exclusive
    · rw [threads]
      exact exclusive.moves solo moved

theorem Covered.step (covered : Covered prog r) (exclusive : Exclusive r.process.threads) (a : Act)
    (solo : a.Solo r.process.threads) : Covered prog (r.step prog a) := by
  cases a with
  | toggleOff => exact ⟨covered.underway,covered.walked,covered.propagated,covered.unfiltered,covered.locks⟩
  | thread i =>
    rcases r.step_thread prog i with ⟨same,_⟩ | ⟨sh,pc,moved,threads,abandoned,walked⟩
    · rw [same]
      exact covered
    have later : ∀ p, settled prog r p → settled prog (r.step prog (.thread i)) p := by
      rintro p (marked | given)
      · exact .inl (by rw [threads]; exact moved.marked marked)
      · exact .inr (by rw [abandoned]; exact List.mem_append_left _ given)
    constructor
    · intro t g own unfiltered can p listed good
      rw [threads] at own ⊢
      rw [moved.ahead exclusive solo]
      by_cases mine : t = i.tid
      swap
      · rw [State.set_other _ mine] at own ⊢
        exact (covered.underway t g own unfiltered can p listed good).imp_right (later p)
      subst mine
      rw [State.set_self] at own ⊢
      rcases moved.go own with before | ⟨rfl,_⟩
      · rcases covered.underway _ g before unfiltered can p listed good with due | done
        · rcases moved.due before unfiltered (fun g batch here => exclusive.fresh solo here) good due with due | marked | given
          · exact .inl due
          · exact .inr (.inl (by rw [threads]; exact marked))
          · exact .inr (.inr (by rw [abandoned]; exact List.mem_append_right _ given))
        · exact .inr (later p done)
      · left
        rwa [ahead_enter,due_enter can]
    · intro f member can p listed good
      rw [walked,List.mem_append] at member
      rcases member with member | member
      · exact later p (covered.walked f member can p listed good)
      obtain ⟨g,here,unfiltered,rfl⟩ := mem_walkedBy.mp member
      refine later p ((covered.underway i.tid g ?_ unfiltered can p listed good).resolve_left ?_)
      · rw [here]
        rfl
      · change p ∉ ((r.process.threads.pc i.tid).ahead _).due
        rw [here]
        exact List.not_mem_nil
    · rw [threads,walked]
      intro f done
      rcases moved.propagated_by done with old | ⟨g,here,locked,rfl⟩
      · exact List.mem_append_left _ (covered.propagated f old)
      · have unfiltered := covered.unfiltered i.tid g (by rw [here]; rfl) locked
        exact List.mem_append_right _ (mem_walkedBy.mpr ⟨g,here,unfiltered,rfl⟩)
    · intro t g own locked
      rw [threads] at own
      rcases r.process.threads.set_pc i.tid (sh,pc) t with same | ⟨rfl,same⟩ <;> rw [same] at own
      · exact covered.unfiltered t g own locked
      rcases moved.go own with before | ⟨_,⟨_,free,_⟩ | ⟨c,waits,_,named⟩⟩
      · exact covered.unfiltered _ g before locked
      · exact absurd (free.symm.trans locked) (by decide)
      · exact named (covered.locks _ c waits)
    · intro t c waits
      rw [threads] at waits
      rcases r.process.threads.set_pc i.tid (sh,pc) t with same | ⟨rfl,same⟩ <;> rw [same] at waits
      · exact covered.locks t c waits
      rcases moved.waiting waits with before | ⟨_,_,locks⟩
      · exact covered.locks _ c before
      · exact locks

theorem Written.initial : Written prog .initial where
  marked _ marked := by cases marked
  marking _ _ member := by cases member

theorem Moves.written {t : Nat} {caller : Caller} {o : Outcome} {sh : Shared} {pc : Pc Nat} (moved : Moves prog caller o s.shared (s.pc t) sh pc)
    (sure : o.Sure) (written : Written prog s) : Written prog (s.set t (sh,pc)) := by
  have kept : ∀ b, (∃ P ∈ s.shared.patches, P.block = b ∧ prog.block P.pt = b) →
      ∃ P ∈ sh.patches, P.block = b ∧ prog.block P.pt = b := by
    rintro b ⟨P,listed,here⟩
    exact ⟨P,moved.patches P listed,here⟩
  constructor
  · intro b marked
    rcases moved.instrumented_by marked with old | ⟨p,member,rfl⟩
    · exact kept b (written.marked b old)
    · exact kept _ (written.marking t p member)
  · intro u p member
    rcases s.set_pc t (sh,pc) u with same | ⟨rfl,same⟩ <;> rw [same] at member
    · exact kept _ (written.marking u p member)
    obtain ⟨ok,snip,wrote⟩ := moved.patched_by member
    exact ⟨⟨prog.block p,p,snip⟩,by simp [wrote,patchesOf,sure ok],rfl,rfl⟩

/-- Whatever the order of the steps of the threads, as long as no batch is committed while
another thread's run is under way, a call point of a function that is marked as propagated is
patched, or every worker has failed on it, if it is one that `go` and `run` try. -/
theorem propagated_covered (prog : Program) (acts : List Act)
    (solo : Library.Meets (Recorded.step prog) (fun r a => a.Solo r.process.threads) .initial acts) :
    let r := Library.run (Recorded.step prog) .initial acts
    ∀ f, r.process.threads.shared.propagated f = true → prog.canInstrument f = true →
      ∀ p ∈ prog.nextPoints f, worth prog p = true → settled prog r p := by
  intro r f done can
  have kept : Covered prog r ∧ Exclusive r.process.threads :=
    @Library.invariant_run Recorded Act (Recorded.step prog) (fun r a => a.Solo r.process.threads)
      (fun r => Covered prog r ∧ Exclusive r.process.threads)
      (fun r a kept solo => ⟨kept.1.step kept.2 a solo,r.exclusive_step kept.2 a solo⟩) _ _ ⟨.initial,.initial⟩ solo
  exact kept.1.walked f (kept.1.propagated f done) can

/-- Callers that take the lock need no condition. -/
theorem Recorded.solo_of_locks {acts : List Act} (all : ∀ t, (r.process.threads.pc t).within = true)
    (locks : ∀ i, .thread i ∈ acts → i.caller.locks = true) :
    Library.Meets (Recorded.step prog) (fun r a => a.Solo r.process.threads) r acts := by
  induction acts generalizing r with
  | nil => trivial
  | cons a rest ih =>
    have later : ∀ i, .thread i ∈ rest → i.caller.locks = true := fun i listed => locks i (List.mem_cons_of_mem _ listed)
    cases a with
    | toggleOff => exact ⟨trivial,ih all later⟩
    | thread i =>
      refine ⟨solo_of_within all i.tid,ih (fun t => ?_) later⟩
      rcases r.step_thread prog i with ⟨same,_⟩ | ⟨sh,pc,moved,threads,_⟩
      · rw [same]
        exact all t
      · rw [threads]
        rcases r.process.threads.set_pc i.tid (sh,pc) t with other | ⟨_,own⟩
        · rw [other]
          exact all t
        · rw [own]
          exact moved.within (locks i List.mem_cons_self) (all i.tid)

theorem propagated_covered_oneCall :
    settled oneCall (Library.run (Recorded.step oneCall) .initial (actsOf 0 (.propel (some 0)) 12)) 0 := by
  refine propagated_covered oneCall (actsOf 0 (.propel (some 0)) 12) ?_ 0 (by decide) rfl 0 (by decide) rfl
  refine Recorded.solo_of_locks (fun _ => rfl) fun i listed => ?_
  simp only [actsOf,steps,List.map_replicate,List.mem_replicate,Act.thread.injEq] at listed
  rw [listed.2]
  rfl

end

/-! What the workers make of an attempt. -/

def outcomeOf (ps : List Workers.Patch) (ok : Bool) : Outcome where
  wrote := ps.any fun p => p.place == .last || p.place == .start
  spring := ps.findSome? fun p =>
    match p.place with
    | .spring b => some b
    | .last | .start => none
  ok := ok

open Workers in
/-- The outcome is that of a worker on a point whose buffers are placed, which is given the
permissions it asks for; or nothing was saved, and it is not run. -/
inductive Outcome.Made : Outcome → Prop
  | unsaved : Made ⟨false,none,false⟩
  | worked {c : Config} {w f : World} {pt : Nat} {a : Answers} {k : InstallMethod} {ok : Bool} {ps : List Workers.Patch}
      (placed : Placed c w pt k a) (ended : worker c w pt a k = (.returns ok,f)) (written : Workers.Written c w pt a k ps)
      (code : permits (c.blockOf pt).start a.codePerm = true) (blob : k = .relocInsn → a.blobPerm = true) :
      Made (outcomeOf ps ok)

/-- Only the call-instruction worker writes and then fails, when the blob's permission is
refused. -/
theorem outcome_ok {c : Workers.Config} {w f : Workers.World} {pt : Nat} {a : Workers.Answers}
    {k : Workers.InstallMethod} {ok : Bool} {ps : List Workers.Patch} (placed : Workers.Placed c w pt k a)
    (ended : Workers.worker c w pt a k = (.returns ok,f)) (written : Workers.Written c w pt a k ps)
    (granted : k = .relocInsn → a.blobPerm = true) (writes : (outcomeOf ps ok).wrote = true ∨
      (outcomeOf ps ok).spring.isSome = true) : (outcomeOf ps ok).ok = true := by
  cases ok with
  | true => rfl
  | false =>
    rcases written with ⟨reaches,rfl⟩ | ⟨_,rfl⟩
    · obtain rfl := Workers.last_of_failed placed ended reaches
      obtain ⟨_,_,_,run⟩ := (Workers.callInsn_cases placed).resolve_left fun either => either.1 reaches
      have run' := ended.symm.trans run
      simp [granted rfl] at run'
    · simp [outcomeOf] at writes

open Workers in
/-- A worker that succeeds has written to the call block, if the permission to is given. -/
theorem outcome_sure {c : Config} {w f : World} {pt : Nat} {a : Answers} {k : InstallMethod} {ps : List Workers.Patch}
    (placed : Placed c w pt k a) (ended : worker c w pt a k = (.returns true,f)) (written : Workers.Written c w pt a k ps)
    (granted : permits (c.blockOf pt).start a.codePerm = true) : (outcomeOf ps true).Sure := by
  have reaches : Reaches c w pt a k := by
    by_contra out
    have stops : Stops c pt w (worker c w pt a k) := by
      cases k with
      | relocInsn => exact ((callInsn_cases placed).resolve_right fun either => out either.1).2
      | relocBlk => exact ((callBlock_cases placed).resolve_right fun either => out either.1).2
      | springboard => exact ((springboard_cases placed).resolve_right fun either => out either.1).2
      | trap => exact ((trap_cases placed).resolve_right fun either => out either.1).2
    exact stops.1 (by rw [ended])
  obtain rfl := (written.resolve_right fun either => either.1 reaches).2
  have asked : a.codePerm = true := by
    unfold permits at granted
    exact (Bool.and_eq_true _ _ ▸ granted).2
  intro _
  cases k with
  | relocInsn | trap => rfl
  | relocBlk => simp [patches,asked,outcomeOf]
  | springboard =>
    obtain ⟨s,found,_⟩ := reaches.2.2.2.2
    simp [patches,found,granted,outcomeOf]

theorem Outcome.Made.whole {o : Outcome} (made : o.Made) (writes : o.wrote = true ∨ o.spring.isSome = true) : o.ok = true := by
  cases made with
  | unsaved => simp at writes
  | worked placed ended written _ blob => exact outcome_ok placed ended written blob writes

theorem Outcome.Made.sure {o : Outcome} (made : o.Made) : o.Sure := by
  intro ok
  cases made with
  | unsaved => cases ok
  | worked placed ended written code _ =>
    obtain rfl : _ = true := ok
    exact outcome_sure placed ended written code rfl

/-- A worker that redirects a call instruction. -/
theorem made_nearCall : Outcome.Made ⟨true,none,true⟩ := by
  have ended : Workers.worker Workers.nearCall Workers.nearWorld 0 (Workers.nearAnswers true) .relocInsn =
      (.returns true,(Workers.worker Workers.nearCall Workers.nearWorld 0 (Workers.nearAnswers true) .relocInsn).2) :=
    Prod.ext (by decide +kernel) rfl
  exact .worked (Workers.nearCall_placed true) ended (.inl ⟨Workers.nearCall_reaches true,rfl⟩) (by decide +kernel) fun _ => rfl

end SelfPropelled.Propagation
