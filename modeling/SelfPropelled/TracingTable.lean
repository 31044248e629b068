import SelfPropelled.IpcChannels

/-! The flags of the pipe worker: one byte for each process id, in memory that all processes share. -/

namespace SelfPropelled.PipeTracing
open Ipc Ipc.SpIpcWorkerDelegate Library

/-- `TRACING_SIZE` -/
def tracingSize : Int := 32768

/-- A process with the pipe worker's channels; `remotePid` and `injected` are the fields of
the channel with a number. -/
structure Process where
  pid : ℕ+
  worker : SpIpcWorkerDelegate
  remotePid : Nat → Option ℕ+
  injected : Nat → Bool

structure System where
  procs : Nat → Option Process
  tracing : Int → BitVec 8

/-- A peer that was not found is left at -1. -/
def index : Option ℕ+ → Int
  | some pid => (pid : ℕ)
  | none => -1

/-- What happens to a process: its worker is made, it forks a child, `fork` returns in the
child, it calls a write or read on a pipe, closes it or calls `popen`, it asks whether it may
trace. `found` are the processes that use the pipe, in the order of their ids. -/
inductive Input
  | load (p : Nat) (pid : ℕ+)
  | fork (p child : Nat) (pid : ℕ+)
  | forkReturns (p : Nat)
  | write (p : Nat) (fd : Int) (found : List ℕ+) (hasLibrary injects : Bool)
  | read (p : Nat) (fd : Int) (found : List ℕ+)
  | close (p : Nat) (fd : Int)
  | popen (p : Nat) (fd : Int) (found : List ℕ+)
  | canStart (p : Nat)

namespace Process

/-- The peer of the channel that `GetChannel` gives for writing. -/
def peer (pr : Process) (fd : Int) (found : List ℕ+) : Option ℕ+ :=
  match pr.worker.cached .write fd with
  | some c => pr.remotePid c.id
  | none => found.find? (· ≠ pr.pid)

/-- `CreateChannel` always makes a channel. -/
def getChannel (pr : Process) (fd : Int) (rw : ChannelRW) (found : List ℕ+) : Nat × Process :=
  match pr.worker.cached rw fd with
  | some c => (c.id,pr)
  | none => (pr.worker.created,{pr with
      worker := (pr.worker.getChannel fd rw true).2
      remotePid := Function.update pr.remotePid pr.worker.created (found.find? (· ≠ pr.pid))
      injected := Function.update pr.injected pr.worker.created false})

/-- `Inject`: an agent that is there already is not noted in the channel. -/
def inject (pr : Process) (c : Nat) (hasLibrary injects : Bool) : Bool × Process :=
  if pr.injected c then (true,pr)
  else if (pr.remotePid c).isSome then
    if hasLibrary then (true,pr)
    else (injects,{pr with injected := Function.update pr.injected c injects})
  else (false,pr)

end Process

/-- The process after an input, and the flags it sets, by index. -/
def effect (pr : Process) : Input → Process × List (Int × BitVec 8)
  | .forkReturns _ => (pr,[((pr.pid : ℕ),0)])
  | .write _ fd found hasLibrary injects =>
    let (c,pr) := pr.getChannel fd .write found
    let (done,pr) := pr.inject c hasLibrary injects
    (pr,if done then [(index (pr.remotePid c),1)] else [])
  | .read _ fd found => ((pr.getChannel fd .read found).2,[])
  | .close _ fd => ({pr with worker := pr.worker.closeChannel fd},[])
  | .popen _ fd found =>
    let (c,pr) := pr.getChannel fd .write found
    (pr,[(index (pr.remotePid c),0)])
  | _ => (pr,[])

def Input.process : Input → Nat
  | load p _ | fork p _ _ | forkReturns p | write p _ _ _ _ | read p _ _ | close p _ | popen p _ _ | canStart p => p

def setFlags (tracing : Int → BitVec 8) (sets : List (Int × BitVec 8)) : Int → BitVec 8 :=
  sets.foldl (fun t e => Function.update t e.1 e.2) tracing

def step (s : System) (a : Input) : System :=
  match a with
  | .load p pid =>
    {procs := Function.update s.procs p (some ⟨pid,empty,fun _ => none,fun _ => false⟩)
     tracing := Function.update s.tracing (pid : ℕ) 0}
  | .fork p child pid => {s with procs := Function.update s.procs child ((s.procs p).map ({· with pid := pid}))}
  | a =>
    match s.procs a.process with
    | none => s
    | some pr =>
      let (pr,sets) := effect pr a
      {procs := Function.update s.procs a.process (some pr), tracing := setFlags s.tracing sets}

/-- Every index with which the table is read or written. -/
def indices (s : System) (a : Input) : List Int :=
  match a with
  | .load _ pid => [(pid : ℕ)]
  | .canStart p => ((s.procs p).map fun pr => ((pr.pid : ℕ) : Int)).toList
  | a => ((s.procs a.process).map fun pr => (effect pr a).2.map Prod.fst).getD []

/-- The flag is set for a channel without a known peer. -/
def UnknownPeer (s : System) : Input → Prop
  | .write p fd found _ _ => ∃ pr, s.procs p = some pr ∧ pr.peer fd found = none
  | .popen p fd found => ∃ pr, s.procs p = some pr ∧ pr.peer fd found = none
  | _ => False

def start : System := ⟨fun _ => none,fun _ => 0⟩

def InTable (i : Int) : Prop := 0 ≤ i ∧ i < tracingSize

structure InRange (inputs : List Input) : Prop where
  indices : ∀ before a rest, inputs = before ++ a :: rest →
    ∀ i ∈ indices (Library.run step start before) a, InTable i
  unknown : ∀ before a rest, inputs = before ++ a :: rest → UnknownPeer (Library.run step start before) a →
    ∀ i, InTable i → (step (Library.run step start before) a).tracing i = (Library.run step start before).tracing i

/-- The process ids that are used as indices are below the size of the table: that of the
process which asks or whose flag is cleared, that of the peer a write starts to trace, and
that of the peer of a `popen`, which is known. -/
def Small (s : System) : Input → Prop
  | .load _ pid => ((pid : ℕ) : Int) < tracingSize
  | .forkReturns p | .canStart p => ∀ pr, s.procs p = some pr → ((pr.pid : ℕ) : Int) < tracingSize
  | .write p fd found hasLibrary injects => ∀ pr, s.procs p = some pr → ∀ peer, pr.peer fd found = some peer →
      hasLibrary = true ∨ injects = true ∨ (∃ c, pr.worker.cached .write fd = some c ∧ pr.injected c.id = true) →
      ((peer : ℕ) : Int) < tracingSize
  | .popen p fd found => ∀ pr, s.procs p = some pr → ∃ peer, pr.peer fd found = some peer ∧ ((peer : ℕ) : Int) < tracingSize
  | _ => True

/-- What is injected has a peer. -/
def Process.Sound (pr : Process) : Prop := ∀ c, pr.injected c = true → (pr.remotePid c).isSome = true

section
variable {pr : Process}

theorem getChannel_peer (fd : Int) (found : List ℕ+) :
    (pr.getChannel fd .write found).2.remotePid (pr.getChannel fd .write found).1 = pr.peer fd found := by
  unfold Process.getChannel Process.peer
  cases pr.worker.cached .write fd <;> simp

theorem getChannel_injected (fd : Int) (found : List ℕ+) :
    (pr.getChannel fd .write found).2.injected (pr.getChannel fd .write found).1 = true ↔
      ∃ c, pr.worker.cached .write fd = some c ∧ pr.injected c.id = true := by
  unfold Process.getChannel
  cases pr.worker.cached .write fd <;> simp

theorem Process.Sound.getChannel (sound : pr.Sound) (fd : Int) (rw : ChannelRW) (found : List ℕ+) :
    (pr.getChannel fd rw found).2.Sound := by
  unfold Process.getChannel
  cases pr.worker.cached rw fd with
  | some c => exact sound
  | none =>
    intro c injected
    by_cases new : c = pr.worker.created
    · simp [new] at injected
    · simp only [Function.update_of_ne new] at injected ⊢
      exact sound c injected

theorem Process.Sound.inject (sound : pr.Sound) (c : Nat) (hasLibrary injects : Bool) :
    (pr.inject c hasLibrary injects).2.Sound := by
  unfold Process.inject
  split_ifs with done known there
  · exact sound
  · exact sound
  · intro c' injected
    by_cases same : c' = c
    · rw [same]
      exact known
    · simp only [Function.update_of_ne same] at injected
      exact sound c' injected
  · exact sound

theorem inject_peer (c : Nat) (hasLibrary injects : Bool) :
    (pr.inject c hasLibrary injects).2.remotePid = pr.remotePid := by
  unfold Process.inject
  split_ifs <;> rfl

theorem inject_done (sound : pr.Sound) (c : Nat) (hasLibrary injects : Bool) :
    (pr.inject c hasLibrary injects).1 = true ↔ (pr.remotePid c).isSome = true ∧
      (hasLibrary = true ∨ injects = true ∨ pr.injected c = true) := by
  unfold Process.inject
  split_ifs with done known there
  · simp [sound c done,done]
  · simp [known,there]
  · simp [known,there,done]
  · simp [known]

theorem Process.Sound.effect (sound : pr.Sound) (a : Input) : (effect pr a).1.Sound := by
  cases a with
  | write p fd found hasLibrary injects => exact (sound.getChannel fd .write found).inject _ _ _
  | read p fd found => exact sound.getChannel fd .read found
  | popen p fd found => exact sound.getChannel fd .write found
  | close p fd => exact sound
  | _ => exact sound

/-- A write sets one flag, that of a peer it found injected or has injected. -/
theorem effect_write (sound : pr.Sound) (p : Nat) (fd : Int) (found : List ℕ+) (hasLibrary injects : Bool) :
    (∀ peer, pr.peer fd found = some peer → hasLibrary = true ∨ injects = true ∨
        (∃ c, pr.worker.cached .write fd = some c ∧ pr.injected c.id = true) →
      (effect pr (.write p fd found hasLibrary injects)).2 = [(((peer : ℕ) : Int),1)]) ∧
      (¬((pr.peer fd found).isSome = true ∧ (hasLibrary = true ∨ injects = true ∨
        ∃ c, pr.worker.cached .write fd = some c ∧ pr.injected c.id = true)) →
      (effect pr (.write p fd found hasLibrary injects)).2 = []) := by
  have done := inject_done (sound.getChannel fd .write found) (pr.getChannel fd .write found).1 hasLibrary injects
  rw [getChannel_peer,getChannel_injected] at done
  constructor
  · intro peer known goes
    have set := done.mpr ⟨by rw [known]; rfl,goes⟩
    simp only [effect,set,if_true,inject_peer,getChannel_peer,known,index]
  · intro stays
    have unset := mt done.mp stays
    simp only [effect,if_neg unset]

theorem effect_popen (p : Nat) (fd : Int) (found : List ℕ+) :
    (effect pr (.popen p fd found)).2 = [(index (pr.peer fd found),0)] := by
  simp only [effect,getChannel_peer]

theorem inTable_pid (pid : ℕ+) : InTable (pid : ℕ) ↔ ((pid : ℕ) : Int) < tracingSize := by
  have positive : (0 : Int) ≤ (pid : ℕ) := by omega
  exact and_iff_right positive

theorem inTable_unknown : ¬InTable (index none) := by
  intro inside
  exact absurd inside.1 (by decide)

end

def System.Sound (s : System) : Prop := ∀ p pr, s.procs p = some pr → pr.Sound

section
variable {s : System}

theorem System.Sound.step (sound : s.Sound) (a : Input) : (step s a).Sound := by
  have other : ∀ p pr, pr.Sound → ∀ t, System.Sound ⟨Function.update s.procs p (some pr),t⟩ := by
    intro p pr new t q pr' here
    by_cases same : q = p
    · simp only [same,Function.update_self,Option.some.injEq] at here
      rwa [← here]
    · simp only [Function.update_of_ne same] at here
      exact sound q pr' here
  have moved : (match s.procs a.process with
      | none => s
      | some pr => ⟨Function.update s.procs a.process (some (effect pr a).1),setFlags s.tracing (effect pr a).2⟩ : System).Sound := by
    cases here : s.procs a.process with
    | none => exact sound
    | some pr => exact other _ _ ((sound _ pr here).effect a) _
  cases a with
  | load p pid => exact other p _ (fun c injected => by simp at injected) _
  | fork p child pid =>
    intro q pr here
    by_cases same : q = child
    · simp only [PipeTracing.step,same,Function.update_self,Option.map_eq_some_iff] at here
      obtain ⟨pr',there,rfl⟩ := here
      exact sound p pr' there
    · simp only [PipeTracing.step,Function.update_of_ne same] at here
      exact sound q pr here
  | _ => exact moved

/-- For a peer that is not known no process's flag changes: a write sets none, and what
`popen` writes is in front of the table. -/
theorem unknown_unchanged (sound : s.Sound) {a : Input} (unknown : UnknownPeer s a) {i : Int}
    (inside : InTable i) : (step s a).tracing i = s.tracing i := by
  cases a with
  | write p fd found hasLibrary injects =>
    obtain ⟨pr,here,none⟩ := unknown
    have unset := (effect_write (sound p pr here) p fd found hasLibrary injects).2 (by simp [none])
    simp only [PipeTracing.step,Input.process,here,unset]
    rfl
  | popen p fd found =>
    obtain ⟨pr,here,none⟩ := unknown
    have front : i ≠ index Option.none := fun same => inTable_unknown (same ▸ inside)
    simp only [PipeTracing.step,Input.process,here,effect_popen,none]
    exact Function.update_of_ne front _ _
  | _ => cases unknown

theorem indices_iff (sound : s.Sound) (a : Input) : (∀ i ∈ indices s a, InTable i) ↔ Small s a := by
  cases a with
  | load p pid => simp [indices,Small,inTable_pid]
  | canStart p => cases here : s.procs p <;> simp [indices,Small,inTable_pid,here]
  | forkReturns p => cases here : s.procs p <;> simp [indices,Small,inTable_pid,here,Input.process,effect]
  | fork p child pid | read p fd found | close p fd =>
    cases here : s.procs p <;> simp [indices,Small,here,Input.process,effect]
  | write p fd found hasLibrary injects =>
    cases here : s.procs p with
    | none => simp [indices,Small,here,Input.process]
    | some pr =>
      obtain ⟨goes,stays⟩ := effect_write (sound p pr here) p fd found hasLibrary injects
      have reads : indices s (.write p fd found hasLibrary injects) =
          (effect pr (.write p fd found hasLibrary injects)).2.map Prod.fst := by
        simp only [indices,Input.process,here,Option.map_some,Option.getD_some]
      constructor
      · intro inside pr' same peer known traced
        cases here.symm.trans same
        rw [reads,goes peer known traced] at inside
        exact (inTable_pid peer).mp (inside _ List.mem_cons_self)
      · intro small i member
        by_cases sets : (pr.peer fd found).isSome = true ∧ (hasLibrary = true ∨ injects = true ∨
            ∃ c, pr.worker.cached .write fd = some c ∧ pr.injected c.id = true)
        · obtain ⟨peer,known⟩ := Option.isSome_iff_exists.mp sets.1
          rw [reads,goes peer known sets.2] at member
          rw [List.mem_singleton.mp member]
          exact (inTable_pid peer).mpr (small pr here peer known sets.2)
        · rw [reads,stays sets] at member
          cases member
  | popen p fd found =>
    cases here : s.procs p with
    | none => simp [indices,Small,here,Input.process]
    | some pr =>
      have reads : indices s (.popen p fd found) = [index (pr.peer fd found)] := by
        simp only [indices,Input.process,here,Option.map_some,Option.getD_some,effect_popen,List.map_cons,
          List.map_nil]
      rw [reads,List.forall_mem_singleton]
      constructor
      · intro inside pr' same
        cases here.symm.trans same
        cases known : pr.peer fd found with
        | none =>
          rw [known] at inside
          exact absurd inside inTable_unknown
        | some peer =>
          rw [known] at inside
          exact ⟨peer,rfl,(inTable_pid peer).mp inside⟩
      · intro small
        obtain ⟨peer,known,below⟩ := small pr here
        rw [known]
        exact (inTable_pid peer).mpr below

end

/-- In a run all indices are in the table and the flags are kept where the peer is unknown
just when the process ids that are used as indices are small and no `popen` lacks its peer. -/
theorem tracing_in_range_iff (inputs : List Input) : InRange inputs ↔ Meets step Small start inputs := by
  have sound : ∀ before, (Library.run step start before).Sound := fun before =>
    invariant_always step (fun s a sound => sound.step a) (fun p pr here => by cases here)
  rw [meets_iff_split]
  constructor
  · intro inRange before a rest split
    exact (indices_iff (sound before) a).mp (inRange.indices before a rest split)
  · intro small
    exact ⟨fun before a rest split => (indices_iff (sound before) a).mpr (small before a rest split),
      fun before a rest _ unknown i inside => unknown_unchanged (sound before) unknown inside⟩

/-- Process 1 is loaded and calls `popen` while no other process uses the pipe. -/
theorem popen_in_front : ¬InRange [.load 0 1,.popen 0 5 []] := by
  intro inRange
  have outside := inRange.indices [.load 0 1] (.popen 0 5 []) [] rfl (-1) (by decide)
  exact absurd outside.1 (by decide)

end SelfPropelled.PipeTracing
