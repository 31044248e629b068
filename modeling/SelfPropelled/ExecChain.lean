import SelfPropelled.ExecEnvRewrite
import SelfPropelled.Library.Run

/-! Chains of execs: each process hands its environment on, either one it builds
itself or its own, and the agent rewrites it on the way. -/

namespace SelfPropelled.ExecEnv
open Environment Library

/-- How a process executes the next program. -/
inductive Exec
  | explicit (envs : Option (List Str))
  | inherited
deriving DecidableEq, Repr

def processOf (agentName : Str) (env : List Str) : Process := ⟨getenv env,some agentName⟩

/-- The environment of the next process. An array with a hole in it or beyond
its end is undefined behaviour. -/
def execute (agentName : Str) (env : List Str) : Exec → Option (List Str)
  | .explicit envs =>
    let slots := (setEnvs (processOf agentName env) envs).dropLast
    if slots.length < 1024 ∧ ∀ s ∈ slots, s.value.isSome = true then some (values slots) else none
  | .inherited => handleExecl agentName env

def step (agentName : Str) (env : Option (List Str)) (exec : Exec) : Option (List Str) :=
  env.bind fun env => execute agentName env exec

def preloads (env : List Str) : List Str :=
  ((getenv env "LD_PRELOAD").map (entries preloadSep)).getD []

def agentPathOf (agentName : Str) (env : List Str) : Str := (processOf agentName env).agentPath

/-- The agent is preloaded, once, and the user's libraries are too. -/
structure Inherits (agentName : Str) (init env : List Str) : Prop where
  agent : (preloads env).count (agentPathOf agentName init) = 1
  user : preloads init ⊆ preloads env

/-- The environments that `SetEnvs` hands on with its `LD_PRELOAD` and
`SP_AGENT_DIR` whole. The other variables may be cut or unset. -/
structure Preloadable (p : Process) (env : List Str) : Prop where
  fresh : ∀ name ∈ settings, ∀ e ∈ env, ¬Defines name e
  room : env.length + (agentVars p).countP (fun q => getenv env q.1 = none) +
    (if (p.getenv "SP_IPC").isSome then 1 else 0) +
    (if (p.getenv "SP_FDEBUG").isSome then 1 else 0) < 1024
  extended : ∀ v, getenv env "LD_PRELOAD" = some v →
    (key "LD_PRELOAD").length + v.length + 1 + p.agentPath.length < bufferSize
  short : getenv env "LD_PRELOAD" = none → (key "LD_PRELOAD").length + p.agentPath.length < bufferSize
  dir : (key "SP_AGENT_DIR").length + (p.printed "SP_AGENT_DIR").length < bufferSize

/-- Where a chain may start: the agent's directory is set, its path is one entry,
and a program that inherits the environment has the agent in it once, or not its name. -/
structure Starts (agentName : Str) (init : List Str) (first : Exec) : Prop where
  dir : (getenv init "SP_AGENT_DIR").isSome = true
  plain : ∀ c ∈ agentPathOf agentName init, preloadSep c = false
  once : first = .inherited → ∀ libs, getenv init "LD_PRELOAD" = some libs → agentName <:+: libs →
    (preloads init).count (agentPathOf agentName init) = 1

/-- The execs that keep the agent and the user's libraries: an explicit
environment must pass the libraries on without the agent. -/
def Passes (agentName : Str) (init : List Str) (state : Option (List Str)) : Exec → Prop
  | .explicit envs => ∀ env ∈ state, Preloadable (processOf agentName env) (envs.getD []) ∧
      preloads init ⊆ preloads (envs.getD []) ∧ agentPathOf agentName init ∉ preloads (envs.getD [])
  | .inherited => True

/-- What every process of the chain knows. -/
structure Carries (init env : List Str) : Prop where
  dir : getenv env "SP_AGENT_DIR" = getenv init "SP_AGENT_DIR"
  user : preloads init ⊆ preloads env

variable {agentName : Str} {init env : List Str}

private theorem preloads_some {v : Str} (set : getenv env "LD_PRELOAD" = some v) :
    preloads env = entries preloadSep v := by
  rw [preloads,set]
  rfl

private theorem agentPathOf_set {dir : Str} (set : getenv env "SP_AGENT_DIR" = some dir) :
    agentPathOf agentName env = dir ++ '/' :: agentName := by
  simp only [agentPathOf,processOf,Process.agentPath,Process.printed,Process.agentName,set,Option.getD_some]

private theorem Carries.path (carries : Carries init env) :
    agentPathOf agentName env = agentPathOf agentName init := by
  simp only [agentPathOf,processOf,Process.agentPath,Process.printed,Process.agentName,carries.dir]

theorem Preloadable.execute {envs : Option (List Str)}
    (fits : Preloadable (processOf agentName env) (envs.getD [])) :
    execute agentName env (.explicit envs) = some (values
      ((envs.getD []).map (slotOf (processOf agentName env)) ++ added (processOf agentName env) (envs.getD []))) := by
  rw [ExecEnv.execute,setEnvs_eq,List.dropLast_concat]
  refine if_pos ⟨?_,filled_rewritten _ fits.fresh⟩
  rw [length_rewritten]
  exact fits.room

/-- What the next program finds in `LD_PRELOAD`. -/
theorem Preloadable.libraries {p : Process} {envs : List Str} (fits : Preloadable p envs)
    (plain : ∀ c ∈ p.agentPath, preloadSep c = false) :
    preloads (values (envs.map (slotOf p) ++ added p envs)) = preloads envs ++ [p.agentPath] := by
  have list := getenv_rewritten (p := p) (by simp [agentVars]) (getenv_loop_preload p envs)
  have filled := filled_rewritten p fits.fresh
  cases given : getenv envs "LD_PRELOAD" with
  | none =>
    rw [given] at list
    rw [preloads_some (getenv_cut filled list (fits.short given)),preloads,given]
    exact entries_single plain
  | some u =>
    have short := fits.extended u given
    rw [given] at list
    have found := getenv_cut filled list (by
      simp only [Option.map_some,Option.getD_some,List.length_append,List.length_cons]
      omega)
    rw [preloads_some found,preloads_some given,Option.map_some,Option.getD_some,entries_append (by decide),
      entries_single plain]

/-- And in `SP_AGENT_DIR`. -/
theorem Preloadable.agentDir {p : Process} {envs : List Str} (fits : Preloadable p envs) :
    getenv (values (envs.map (slotOf p) ++ added p envs)) "SP_AGENT_DIR" = some (p.printed "SP_AGENT_DIR") := by
  have lacking := getenv_eq_none.mpr (fits.fresh "SP_AGENT_DIR" (by decide))
  refine getenv_cut (filled_rewritten p fits.fresh) ?_ fits.dir
  rw [List.map_append,getenv_append,getenv_loop_fresh p (by decide) lacking,
    getenv_added (v := p.printed "SP_AGENT_DIR") (by simp [agentVars]) lacking]
  rfl

theorem Carries.explicit (carries : Carries init env) (isSet : (getenv init "SP_AGENT_DIR").isSome = true)
    (plain : ∀ c ∈ agentPathOf agentName init, preloadSep c = false) {envs : Option (List Str)}
    (passes : Passes agentName init (some env) (.explicit envs)) :
    ∃ env', execute agentName env (.explicit envs) = some env' ∧
      Carries init env' ∧ Inherits agentName init env' := by
  obtain ⟨fits,user,fresh⟩ := passes env rfl
  obtain ⟨dir,set⟩ := Option.isSome_iff_exists.mp isSet
  have path : (processOf agentName env).agentPath = agentPathOf agentName init := carries.path
  have libraries := fits.libraries (by rwa [path])
  rw [path] at libraries
  have all : preloads init ⊆ preloads (envs.getD []) ++ [agentPathOf agentName init] :=
    List.Subset.trans user (List.subset_append_left _ _)
  refine ⟨_,fits.execute,⟨?_,?_⟩,⟨?_,?_⟩⟩
  · have same : getenv env "SP_AGENT_DIR" = some dir := carries.dir.trans set
    rw [fits.agentDir,set]
    simp only [Process.printed,processOf,same,Option.getD_some]
  · rw [libraries]
    exact all
  · rw [libraries,List.count_append,List.count_eq_zero.mpr fresh,List.count_singleton_self]
  · rw [libraries]
    exact all

private theorem Carries.afterSetenv (carries : Carries init env) {v : Str}
    (libraries : entries preloadSep v = preloads env ++ [agentPathOf agentName init])
    (fresh : agentPathOf agentName init ∉ preloads env) :
    Carries init (setenv "LD_PRELOAD" v env) ∧ Inherits agentName init (setenv "LD_PRELOAD" v env) := by
  have set := preloads_some (getenv_setenv "LD_PRELOAD" v env)
  rw [libraries] at set
  have dir : getenv (setenv "LD_PRELOAD" v env) "SP_AGENT_DIR" = getenv env "SP_AGENT_DIR" :=
    getenv_setenv_other (managed_unlike (by decide) (by decide) (by decide)) v env
  have all : preloads init ⊆ preloads env ++ [agentPathOf agentName init] :=
    List.Subset.trans carries.user (List.subset_append_left _ _)
  refine ⟨⟨dir.trans carries.dir,set ▸ all⟩,⟨?_,set ▸ all⟩⟩
  rw [set,List.count_append,List.count_eq_zero.mpr fresh,List.count_singleton_self]

theorem Carries.inherited (carries : Carries init env) (isSet : (getenv init "SP_AGENT_DIR").isSome = true)
    (plain : ∀ c ∈ agentPathOf agentName init, preloadSep c = false)
    (once : ∀ libs, getenv env "LD_PRELOAD" = some libs → agentName <:+: libs →
      (preloads env).count (agentPathOf agentName init) = 1) :
    ∃ env', execute agentName env .inherited = some env' ∧
      Carries init env' ∧ Inherits agentName init env' := by
  obtain ⟨dir,set⟩ := Option.isSome_iff_exists.mp isSet
  have path : dir ++ '/' :: agentName = agentPathOf agentName init := (agentPathOf_set set).symm
  rw [← carries.dir] at set
  cases given : getenv env "LD_PRELOAD" with
  | none =>
    have empty : preloads env = [] := by rw [preloads,given]; rfl
    refine ⟨_,by simp only [execute,handleExecl,given,set]; rfl,carries.afterSetenv ?_ (by simp [empty])⟩
    rw [path,empty,entries_single plain]
    rfl
  | some libs =>
    by_cases inside : agentName <:+: libs
    · refine ⟨env,by simp only [execute,handleExecl,given,if_pos inside],carries,once libs given inside,?_⟩
      exact carries.user
    · have fresh : agentPathOf agentName init ∉ preloads env := by
        intro member
        rw [preloads_some given] at member
        have tail : agentName <:+: agentPathOf agentName init := by
          rw [← path]
          exact ⟨dir ++ ['/'],[],by simp⟩
        exact inside (tail.trans (infix_of_mem_entries member))
      refine ⟨_,by simp only [execute,handleExecl,given,if_neg inside,set]; rfl,carries.afterSetenv ?_ fresh⟩
      rw [path,entries_append (by decide),entries_single plain,preloads_some given]

/-- One exec: where an inherited environment holds the agent's name, it holds the
agent once. -/
theorem Carries.execute (carries : Carries init env) (isSet : (getenv init "SP_AGENT_DIR").isSome = true)
    (plain : ∀ c ∈ agentPathOf agentName init, preloadSep c = false) {exec : Exec}
    (passes : Passes agentName init (some env) exec)
    (once : exec = .inherited → ∀ libs, getenv env "LD_PRELOAD" = some libs → agentName <:+: libs →
      (preloads env).count (agentPathOf agentName init) = 1) :
    ∃ env', execute agentName env exec = some env' ∧ Carries init env' ∧ Inherits agentName init env' := by
  cases exec with
  | explicit envs => exact carries.explicit isSet plain passes
  | inherited => exact carries.inherited isSet plain (once rfl)

def agentFile : Str := "libmyagent.so".toList

def userEnv : List Str :=
  ["LD_PRELOAD=/lib/user.so".toList,"SP_AGENT_DIR=/spi".toList,"SP_DIR=/src".toList,
    "PLATFORM=x86".toList,"SP_DYNINST_DIR=/dyn".toList]

/-- It executes a program with a minimal environment. -/
def minimalExec : Exec := .explicit (some ["LD_PRELOAD=/lib/user.so".toList])

/-- That executes one with its own environment, which executes one with its own again. -/
def shortChain : List Exec := [.inherited,.inherited]

private theorem plain_of_all {sep : Char → Bool} {v : Str} (all : (v.all fun c => !sep c) = true) :
    ∀ c ∈ v, sep c = false :=
  fun c inside => by simpa using List.all_eq_true.mp all c inside

end SelfPropelled.ExecEnv
