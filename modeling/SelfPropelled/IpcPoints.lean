import SelfPropelled.IpcChannels

/-! The channel of a call point: `SpIpcMgr::BeforeEntry` sets it, `IsIpcWrite` and `IsIpcRead`
ask for it. -/

namespace SelfPropelled.Ipc

open SpIpcWorkerDelegate

inductive IpcWorker
  | pipe | tcp | udp
deriving DecidableEq, Repr

/-- A call at a point: the callee found, the descriptor its arguments name, what the system
says of descriptors, and how the worker's steps end. -/
structure Call where
  pt : Nat
  callee : Option String
  fd : Int
  isPipe : Int → Bool
  isTcp : Int → Bool
  isUdp : Int → Bool
  creates : Bool
  injects : Bool
  canStartTracing : IpcWorker → Int → Bool

def Call.getWorker (call : Call) (fd : Int) : Option IpcWorker :=
  if call.isPipe fd then some .pipe
  else if call.isTcp fd then some .tcp
  else if call.isUdp fd then some .udp
  else none

/-- The functions whose first argument is a descriptor to write to, and those that take
a stream for it. `putchar` has no descriptor. -/
def writeFunctions : List String :=
  ["write","send","writev","connect","fputs","fputc","fwrite_unlocked","fwrite","sendfile64"]

def readFunctions : List String :=
  ["read","recv","readv","fgets","fgetc","fread_unlocked","fread","accept"]

def closeFunctions : List String := ["close"]

/-- `GetWriteParam`, `GetReadParam` and `GetCloseParam`: the descriptor of a call of one of
the functions, and -1 otherwise. -/
def Call.getParam (call : Call) (functions : List String) : Int :=
  match call.callee with
  | some f => if f ∈ functions then call.fd else -1
  | none => -1

def Call.workerOf (call : Call) (fd : Int) : Option IpcWorker :=
  if fd ≠ -1 then call.getWorker fd else none

/-- The UDP worker constructs no channel. -/
def Call.constructs (call : Call) (w : IpcWorker) : Bool := w ≠ .udp && call.creates

structure IpcProcess where
  worker : IpcWorker → SpIpcWorkerDelegate
  channel : Nat → Option SpChannel

namespace IpcProcess

def initial : IpcProcess := ⟨fun _ => empty,fun _ => none⟩

def setWorker (s : IpcProcess) (w : IpcWorker) (d : SpIpcWorkerDelegate) : IpcProcess :=
  {s with worker := Function.update s.worker w d}

def setChannel (s : IpcProcess) (pt : Nat) (c : SpChannel) : IpcProcess :=
  {s with channel := Function.update s.channel pt (some c)}

/-- Both ends of `BeforeEntry` look a channel up and set it for the point; the sender injects first. -/
def lookUp (s : IpcProcess) (call : Call) (w : IpcWorker) (fd : Int) (rw : ChannelRW) (injected : Bool) :
    IpcProcess :=
  let answer := (s.worker w).getChannel fd rw (call.constructs w)
  match answer.1 with
  | some c => if injected then (s.setWorker w answer.2).setChannel call.pt c else s.setWorker w answer.2
  | none => s.setWorker w answer.2

def beforeEntry (s : IpcProcess) (call : Call) : Bool × IpcProcess :=
  if call.callee.isNone then (false,s)
  else
    let closed := call.getParam closeFunctions
    match call.workerOf closed with
    | some w => (true,s.setWorker w ((s.worker w).closeChannel closed))
    | none =>
      let written := call.getParam writeFunctions
      match call.workerOf written with
      | some w => (true,s.lookUp call w written .write call.injects)
      | none =>
        let read := call.getParam readFunctions
        match call.workerOf read with
        | some w => (true,s.lookUp call w read .read true)
        | none => (true,s)

def isIpcWrite (s : IpcProcess) (pt : Nat) : Bool :=
  match s.channel pt with
  | some c => c.rw = .write
  | none => false

/-- There is no answer where a null worker or callee is asked. -/
def isIpcRead (s : IpcProcess) (call : Call) : Option Bool :=
  match s.channel call.pt with
  | some c =>
    if c.rw = .read then
      match call.getWorker c.fd with
      | some w => if call.canStartTracing w c.fd then call.callee.map (· ≠ "accept") else some false
      | none => none
    else some false
  | none => some false

end IpcProcess

/-- The descriptor and direction of a call that writes to or reads from an IPC descriptor. -/
def Call.target (call : Call) : Option (IpcWorker × ChannelRW) :=
  match call.callee with
  | some f =>
    if f ∈ writeFunctions then (call.workerOf call.fd).map (·,.write)
    else if f ∈ readFunctions then (call.workerOf call.fd).map (·,.read)
    else none
  | none => none

def IpcProcess.channelOf (s : IpcProcess) (call : Call) : Option SpChannel :=
  call.target.bind fun (w,rw) => ((s.worker w).getChannel call.fd rw (call.constructs w)).1

/-- During the payload of a call its point has the channel that call writes to or reads from,
that of its descriptor and direction, or none; and the payload is told so. -/
structure Fresh (s : IpcProcess) (call : Call) : Prop where
  channel : (s.beforeEntry call).2.channel call.pt = s.channelOf call
  own : ∀ c, s.channelOf call = some c → c.fd = call.fd ∧ call.target.map Prod.snd = some c.rw
  write : (s.beforeEntry call).2.isIpcWrite call.pt =
    ((s.channelOf call).isSome && call.target.map Prod.snd = some .write)
  read : (s.beforeEntry call).2.isIpcRead call = some
    ((s.channelOf call).isSome && call.target.map Prod.snd = some .read && call.callee ≠ some "accept" &&
      ((call.getWorker call.fd).any fun w => call.canStartTracing w call.fd))

def Renews (s : IpcProcess) (call : Call) : Prop :=
  ((s.channelOf call).isSome = true ∧ (call.target.map Prod.snd = some .read ∨ call.injects = true)) ∨
    s.channel call.pt = s.channelOf call

def processStep (s : IpcProcess) (call : Call) : IpcProcess := (s.beforeEntry call).2

def Filed (d : SpIpcWorkerDelegate) : Prop :=
  ∀ rw fd c, d.cached rw fd = some c → c.fd = fd ∧ (c.rw = .write ↔ rw = .write) ∧ c.rw ≠ .norw

section
variable {d : SpIpcWorkerDelegate} {s : IpcProcess} {call : Call} {fd : Int} {rw : ChannelRW} {made : Bool}

theorem Filed.answer (filed : Filed d) {c : SpChannel} (answer : (d.getChannel fd rw made).1 = some c) :
    c.fd = fd ∧ (c.rw = .write ↔ rw = .write) ∧ c.rw ≠ .norw := by
  unfold getChannel at answer
  split at answer
  next c' found =>
    obtain rfl := Option.some.inj answer
    exact filed rw fd _ found
  next missing =>
    split_ifs at answer with new write
    · obtain rfl := Option.some.inj answer
      simp [write]
    · obtain rfl := Option.some.inj answer
      simp [write]

theorem Filed.getChannel (filed : Filed d) : Filed (d.getChannel fd rw made).2 := by
  intro rw' fd' c found
  rw [getChannel_cached] at found
  split_ifs at found with own
  · obtain ⟨same,side,dir⟩ := filed.answer found
    exact ⟨same.trans own.1.symm,side.trans own.2.symm,dir⟩
  · exact filed rw' fd' c found

theorem Filed.closeChannel (filed : Filed d) : Filed (d.closeChannel fd) :=
  fun rw' fd' c found => filed rw' fd' c (closeChannel_left found)

theorem filed_setWorker (filed : ∀ w, Filed (s.worker w)) {w : IpcWorker} (new : Filed d) :
    ∀ v, Filed ((s.setWorker w d).worker v) := by
  intro v
  change Filed (Function.update s.worker w d v)
  rcases eq_or_ne v w with rfl | other
  · rw [Function.update_self]
    exact new
  · rw [Function.update_of_ne other]
    exact filed v

theorem filed_lookUp (filed : ∀ w, Filed (s.worker w)) (call : Call) (w : IpcWorker) (fd : Int)
    (rw : ChannelRW) (injected : Bool) : ∀ v, Filed ((s.lookUp call w fd rw injected).worker v) := by
  have new : ∀ v, Filed ((s.setWorker w ((s.worker w).getChannel fd rw (call.constructs w)).2).worker v) :=
    filed_setWorker filed (filed w).getChannel
  unfold IpcProcess.lookUp
  simp only
  split
  · split_ifs
    · exact new
    · exact new
  · exact new

theorem filed_step (filed : ∀ w, Filed (s.worker w)) (call : Call) :
    ∀ w, Filed ((processStep s call).worker w) := by
  unfold processStep IpcProcess.beforeEntry
  split_ifs
  · exact filed
  · simp only
    split
    · exact filed_setWorker filed (filed _).closeChannel
    · split
      · exact filed_lookUp filed call _ _ _ _
      · split
        · exact filed_lookUp filed call _ _ _ _
        · exact filed

theorem write_not_close {f : String} (member : f ∈ writeFunctions) : f ∉ closeFunctions := by
  rintro close
  obtain rfl := List.mem_singleton.mp close
  exact absurd member (by decide +kernel)

theorem read_not_close {f : String} (member : f ∈ readFunctions) : f ∉ closeFunctions := by
  rintro close
  obtain rfl := List.mem_singleton.mp close
  exact absurd member (by decide +kernel)

theorem workerOf_other {functions : List String} {f : String} (callee : call.callee = some f)
    (other : f ∉ functions) : call.workerOf (call.getParam functions) = none := by
  simp [Call.getParam,callee,other,Call.workerOf]

theorem getParam_member {functions : List String} {f : String} (callee : call.callee = some f)
    (member : f ∈ functions) : call.getParam functions = call.fd := by
  simp [Call.getParam,callee,member]

theorem target_some {w : IpcWorker} (target : call.target = some (w,rw)) :
    ∃ f, call.callee = some f ∧ call.workerOf call.fd = some w ∧
      (f ∈ writeFunctions ∧ rw = .write ∨ f ∉ writeFunctions ∧ f ∈ readFunctions ∧ rw = .read) := by
  cases callee : call.callee with
  | none => simp [Call.target,callee] at target
  | some f =>
    simp only [Call.target,callee] at target
    split_ifs at target with write read
    · obtain ⟨v,found,same⟩ := Option.map_eq_some_iff.mp target
      obtain ⟨rfl,rfl⟩ := Prod.mk.inj same
      exact ⟨f,rfl,found,.inl ⟨write,rfl⟩⟩
    · obtain ⟨v,found,same⟩ := Option.map_eq_some_iff.mp target
      obtain ⟨rfl,rfl⟩ := Prod.mk.inj same
      exact ⟨f,rfl,found,.inr ⟨write,read,rfl⟩⟩

theorem beforeEntry_target {w : IpcWorker} (target : call.target = some (w,rw)) :
    (s.beforeEntry call).2 = s.lookUp call w call.fd rw (rw = .read || call.injects) := by
  obtain ⟨f,callee,found,⟨write,rfl⟩ | ⟨write,read,rfl⟩⟩ := target_some target
  · simp [IpcProcess.beforeEntry,callee,workerOf_other callee (write_not_close write),
      getParam_member callee write,found]
  · simp [IpcProcess.beforeEntry,callee,workerOf_other callee (read_not_close read),
      workerOf_other callee write,getParam_member callee read,found]

theorem beforeEntry_other (none : call.target = none) : (s.beforeEntry call).2.channel = s.channel := by
  cases callee : call.callee with
  | none => simp [IpcProcess.beforeEntry,callee]
  | some f =>
    have written : call.workerOf (call.getParam writeFunctions) = Option.none := by
      by_cases write : f ∈ writeFunctions
      · rw [getParam_member callee write]
        simpa [Call.target,callee,write] using none
      · exact workerOf_other callee write
    have read : call.workerOf (call.getParam readFunctions) = Option.none := by
      by_cases member : f ∈ readFunctions
      · rw [getParam_member callee member]
        by_cases write : f ∈ writeFunctions
        · rwa [getParam_member callee write] at written
        · simpa [Call.target,callee,write,member] using none
      · exact workerOf_other callee member
    simp only [IpcProcess.beforeEntry,callee,Option.isNone_some,Bool.false_eq_true,if_false,written,read]
    split <;> rfl

theorem lookUp_channel {w : IpcWorker} {injected : Bool} : (s.lookUp call w fd rw injected).channel call.pt =
    if ((s.worker w).getChannel fd rw (call.constructs w)).1.isSome = true ∧ injected = true then
      ((s.worker w).getChannel fd rw (call.constructs w)).1 else s.channel call.pt := by
  unfold IpcProcess.lookUp
  generalize (s.worker w).getChannel fd rw (call.constructs w) = answer
  obtain ⟨found,d⟩ := answer
  cases found with
  | none => simp [IpcProcess.setWorker]
  | some c => cases injected <;> simp [IpcProcess.setChannel,IpcProcess.setWorker]

/-- The point gets the channel of the call exactly when the call renews it. -/
theorem renews_iff : (s.beforeEntry call).2.channel call.pt = s.channelOf call ↔ Renews s call := by
  unfold Renews IpcProcess.channelOf
  cases target : call.target with
  | none => simp [beforeEntry_other target]
  | some t =>
    obtain ⟨w,rw⟩ := t
    rw [beforeEntry_target target,lookUp_channel]
    simp only [Option.bind_some,Option.map_some,Option.some.injEq,Bool.or_eq_true,decide_eq_true_eq]
    split_ifs with sets
    · simp [sets]
    · exact ⟨.inr,fun renews => renews.resolve_left sets⟩

theorem fresh_iff (filed : ∀ w, Filed (s.worker w)) : Fresh s call ↔ Renews s call := by
  rw [← renews_iff]
  refine ⟨Fresh.channel,fun channel => ?_⟩
  cases target : call.target with
  | none =>
    have none : s.channelOf call = none := by simp [IpcProcess.channelOf,target]
    rw [none] at channel
    refine ⟨by rw [channel,none],?_,?_,?_⟩
    · simp [none]
    · simp [IpcProcess.isIpcWrite,channel,none]
    · simp [IpcProcess.isIpcRead,channel,none]
  | some t =>
    obtain ⟨w,rw⟩ := t
    obtain ⟨f,callee,found,dir⟩ := target_some target
    have dir : rw = .write ∨ rw = .read := dir.imp And.right fun other => other.2.2
    have worker : call.getWorker call.fd = some w := by
      unfold Call.workerOf at found
      split_ifs at found
      exact found
    cases answer : s.channelOf call with
    | none =>
      rw [answer] at channel
      refine ⟨by rw [channel,answer],?_,?_,?_⟩
      · simp [answer]
      · simp [IpcProcess.isIpcWrite,channel,answer]
      · simp [IpcProcess.isIpcRead,channel,answer]
    | some c =>
      rw [answer] at channel
      have made : ((s.worker w).getChannel call.fd rw (call.constructs w)).1 = some c := by
        simpa [IpcProcess.channelOf,target] using answer
      obtain ⟨fd,side,known⟩ := (filed w).answer made
      have same : c.rw = rw := by
        rcases dir with rfl | rfl
        · exact side.mpr rfl
        · cases here : c.rw with
          | read => rfl
          | write => exact absurd (side.mp here) (by simp)
          | norw => exact absurd here known
      refine ⟨by rw [channel,answer],?_,?_,?_⟩
      · intro c' equal
        obtain rfl := Option.some.inj (answer.symm.trans equal)
        exact ⟨fd,by simp [target,same]⟩
      · simp [IpcProcess.isIpcWrite,channel,answer,target,same]
      · have asked : (s.beforeEntry call).2.isIpcRead call = if rw = .read then
            (if call.canStartTracing w call.fd then some (decide (f ≠ "accept")) else some false)
            else some false := by
          simp [IpcProcess.isIpcRead,channel,fd,worker,same,callee]
        rw [asked]
        rcases dir with rfl | rfl
        · simp [target]
        · cases tracing : call.canStartTracing w call.fd <;> simp [answer,target,worker,callee,tracing]

theorem channel_stays {pt : Nat} (set : (s.channel pt).isSome = true) (call : Call) :
    ((processStep s call).channel pt).isSome = true := by
  cases target : call.target with
  | none =>
    rw [processStep,beforeEntry_other target]
    exact set
  | some t =>
    obtain ⟨w,rw⟩ := t
    rw [processStep,beforeEntry_target target]
    unfold IpcProcess.lookUp
    simp only
    split
    · split_ifs
      · rcases eq_or_ne pt call.pt with rfl | other
        · simp [IpcProcess.setChannel]
        · simpa [IpcProcess.setChannel,IpcProcess.setWorker,other] using set
      · exact set
    · exact set

end

/-- In a sequence of calls at any points each payload finds the channel of its own call just
when each call sets the channel of its point or finds it right. -/
theorem point_channels_iff (calls : List Call) :
    (∀ before call rest, calls = before ++ call :: rest →
      Fresh (Library.run processStep .initial before) call) ↔
    Library.Meets processStep Renews .initial calls := by
  have filed : ∀ before : List Call, ∀ w, Filed ((Library.run processStep .initial before).worker w) := by
    intro before
    exact @Library.invariant_always _ _ processStep (fun s => ∀ w, Filed (s.worker w))
      (fun _ call filed => filed_step filed call) _ before fun _ rw fd c found => by
        unfold IpcProcess.initial empty cached at found
        split_ifs at found
  rw [Library.meets_iff_split]
  constructor
  · intro fresh before call rest split
    exact (fresh_iff (filed before)).mp (fresh before call rest split)
  · intro renews before call rest split
    exact (fresh_iff (filed before)).mpr (renews before call rest split)

theorem carried_over {s : IpcProcess} {call : Call} (set : (s.channel call.pt).isSome = true)
    (between : List Call) (other : (Library.run processStep s between).channelOf call = none) :
    ¬Fresh (Library.run processStep s between) call := by
  intro fresh
  have kept : ((Library.run processStep s between).channel call.pt).isSome = true :=
    @Library.invariant_always _ _ processStep (fun s => (s.channel call.pt).isSome = true)
      (fun _ call set => channel_stays set call) s between set
  have gone := (renews_iff.mp fresh.channel).resolve_left (by simp [other])
  rw [gone,other] at kept
  cases kept

/-- A call at point 0, where descriptor 5 is a TCP socket and the others are files. -/
def callOf (callee : String) (fd : Int) : Call :=
  ⟨0,some callee,fd,fun _ => false,fun fd => fd == 5,fun _ => false,true,true,fun _ _ => true⟩

/-- A write to a file is taken for one to the socket written to before at the same point. -/
theorem write_carried_over : ¬∀ before call rest,
    [callOf "write" 5,callOf "write" 6] = before ++ call :: rest →
      Fresh (Library.run processStep .initial before) call := by
  intro fresh
  have channel := (fresh [callOf "write" 5] (callOf "write" 6) [] rfl).channel
  exact absurd channel (by decide +kernel)

end SelfPropelled.Ipc
