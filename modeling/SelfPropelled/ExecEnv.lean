import SelfPropelled.Library.Environment

/-! The environment of a program that an instrumented process executes:
`SetEnvs` and the branches of `HandleExec`, of `ipc_mgr.cc`. -/

namespace SelfPropelled.ExecEnv
open Environment

/-- What an element of `new_envs` holds: nothing yet, the terminator, a pointer
to the caller's string, or a buffer of 1024 bytes formatted with a text. -/
inductive Slot
  | hole
  | null
  | pointer (s : Str)
  | buffer (text : Str)
deriving DecidableEq, Repr

def bufferSize : Nat := 1024

/-- `snprintf` cuts the text to the buffer, less the terminating zero. -/
def Slot.value : Slot → Option Str
  | .pointer s => some s
  | .buffer text => some (text.take (bufferSize - 1))
  | _ => none

def values (slots : List Slot) : List Str := slots.filterMap Slot.value

/-- The process that calls exec: its environment variables, and the agent's file
name where there is a context. -/
structure Process where
  getenv : String → Option Str
  context : Option Str

def Process.agentName (p : Process) : Str := p.context.getD "libmyagent.so".toList

def Process.printed (p : Process) (name : String) : Str := (p.getenv name).getD "(null)".toList

def Process.agentPath (p : Process) : Str := p.printed "SP_AGENT_DIR" ++ '/' :: p.agentName

def Process.agentDirs (p : Process) : Str :=
  p.printed "SP_AGENT_DIR" ++ ':' ::
    (p.printed "SP_DIR" ++ '/' :: p.printed "PLATFORM" ++ ':' :: p.printed "SP_DYNINST_DIR")

structure Scan where
  newEnvs : List Slot
  ldPreload : Bool
  ldLibraryPath : Bool
  platform : Bool
  spAgentDir : Bool
  spDir : Bool

/-- One turn of the loop over the caller's environment. The index advances in
every branch, also in those that store nothing. -/
def scanEntry (p : Process) (st : Scan) (entry : Str) : Scan :=
  if Defines "LD_PRELOAD" entry then
    {st with newEnvs := st.newEnvs ++ [.buffer (entry ++ ':' :: p.agentPath)], ldPreload := true}
  else if Defines "LD_LIBRARY_PATH" entry then
    {st with newEnvs := st.newEnvs ++ [.buffer (entry ++ ':' :: p.agentDirs)], ldLibraryPath := true}
  else if Defines "PLATFORM" entry then {st with newEnvs := st.newEnvs ++ [.hole], platform := true}
  else if Defines "SP_AGENT_DIR" entry then {st with newEnvs := st.newEnvs ++ [.hole], spAgentDir := true}
  else if Defines "SP_DIR" entry then {st with newEnvs := st.newEnvs ++ [.hole], spDir := true}
  else {st with newEnvs := st.newEnvs ++ [.pointer entry]}

/-- The array `SetEnvs` fills, up to its terminator; it has 1024 elements. -/
def setEnvs (p : Process) (envs : Option (List Str)) : List Slot :=
  let st := (envs.getD []).foldl (scanEntry p) ⟨[],false,false,false,false,false⟩
  let setting (name : String) : Slot := .buffer (key name ++ p.printed name)
  st.newEnvs ++
    (if st.ldPreload then [] else [.buffer (key "LD_PRELOAD" ++ p.agentPath)]) ++
    (if st.ldLibraryPath then [] else [.buffer (key "LD_LIBRARY_PATH" ++ p.agentDirs)]) ++
    (if st.platform then [] else [setting "PLATFORM"]) ++
    (if st.spAgentDir then [] else [setting "SP_AGENT_DIR"]) ++
    (if st.spDir then [] else [setting "SP_DIR"]) ++
    (if (p.getenv "SP_IPC").isSome then [.buffer "SP_IPC=1".toList] else []) ++
    (if (p.getenv "SP_FDEBUG").isSome then [.buffer "SP_FDEBUG=1".toList] else []) ++
    [.null]

/-- `HandleExec` for `execl`, `execlp`, `execv` and `execvp`: the variable is set
in the calling process. A missing agent directory is undefined behaviour. -/
def handleExecl (agentName : Str) (env : List Str) : Option (List Str) :=
  match getenv env "LD_PRELOAD" with
  | some libs =>
    if agentName <:+: libs then some env
    else do
      let dir ← getenv env "SP_AGENT_DIR"
      return setenv "LD_PRELOAD" (libs ++ ':' :: (dir ++ '/' :: agentName)) env
  | none => do
    let dir ← getenv env "SP_AGENT_DIR"
    return setenv "LD_PRELOAD" (dir ++ '/' :: agentName) env

def slotOf (p : Process) (entry : Str) : Slot :=
  if Defines "LD_PRELOAD" entry then .buffer (entry ++ ':' :: p.agentPath)
  else if Defines "LD_LIBRARY_PATH" entry then .buffer (entry ++ ':' :: p.agentDirs)
  else if Defines "PLATFORM" entry ∨ Defines "SP_AGENT_DIR" entry ∨ Defines "SP_DIR" entry then .hole
  else .pointer entry

/-- Names whose definitions cannot be mistaken for each other. -/
def managed : List String := ["LD_PRELOAD","LD_LIBRARY_PATH","PLATFORM","SP_AGENT_DIR","SP_DIR"]

theorem managed_plain : ∀ name ∈ managed, '=' ∉ name.toList := by decide

theorem managed_unlike {name other : String} (first : name ∈ managed) (second : other ∈ managed)
    (different : name ≠ other) (v : Str) : ¬Defines other (key name ++ v) :=
  unlike_of_plain (managed_plain name first) (managed_plain other second) different v

theorem others_undefined {name : String} {e : Str} (first : name ∈ managed) (defined : Defines name e) :
    ∀ other ∈ managed, name ≠ other → ¬Defines other e := by
  intro other second different
  obtain ⟨v,rfl⟩ := defined
  exact managed_unlike first second different v

theorem foldl_scanEntry (p : Process) (env : List Str) (st : Scan) :
    env.foldl (scanEntry p) st =
      ⟨st.newEnvs ++ env.map (slotOf p),
        st.ldPreload || env.any fun e => decide (Defines "LD_PRELOAD" e),
        st.ldLibraryPath || env.any fun e => decide (Defines "LD_LIBRARY_PATH" e),
        st.platform || env.any fun e => decide (Defines "PLATFORM" e),
        st.spAgentDir || env.any fun e => decide (Defines "SP_AGENT_DIR" e),
        st.spDir || env.any fun e => decide (Defines "SP_DIR" e)⟩ := by
  induction env generalizing st with
  | nil => simp
  | cons e env ih =>
    rw [List.foldl_cons,ih]
    unfold scanEntry slotOf
    by_cases preload : Defines "LD_PRELOAD" e
    · have others := others_undefined (by decide) preload
      simp [managed] at others
      simp [preload,others]
    by_cases library : Defines "LD_LIBRARY_PATH" e
    · have others := others_undefined (by decide) library
      simp [managed] at others
      simp [library,others]
    by_cases platform : Defines "PLATFORM" e
    · have others := others_undefined (by decide) platform
      simp [managed] at others
      simp [platform,others]
    by_cases agentDir : Defines "SP_AGENT_DIR" e
    · have others := others_undefined (by decide) agentDir
      simp [managed] at others
      simp [agentDir,others]
    by_cases dir : Defines "SP_DIR" e <;> simp [preload,library,platform,agentDir,dir]

end SelfPropelled.ExecEnv
