import SelfPropelled.Library.Environment
import SelfPropelled.Parser

/-! `SpTcpWorker::Inject`: the injector is run by `popen`, with `LD_PRELOAD` taken out of
the environment for it and put back afterwards. -/

namespace SelfPropelled.TcpInjection
open Environment

/-- How the steps of an injection end: the peer's address, what the shell answers to a
command in an environment (the lines read, or none where `popen` fails), and which of the
calls that change the environment fail. -/
structure Steps where
  addressFound : Bool
  remoteIp : Str
  remotePort : Str
  agentName : Str
  unsetenvFails : Bool
  popen : Str → List Str → Option (List Str)
  setenvFails : Bool

/-- `snprintf` cuts the text to the buffer, less the terminating zero. -/
def snprintf (size : Nat) (text : Str) : Str := text.take (size - 1)

def injectCommand (st : Steps) (env : List Str) : Str :=
  let port := snprintf 1024 (" port ".toList ++ st.remotePort)
  let agent := snprintf 1024 ('/' :: Parser.spFilename st.agentName)
  if "127.0.0.1".toList <:+: st.remoteIp then
    (if (getenv env "SP_DIR").isSome && (getenv env "PLATFORM").isSome then "$SP_DIR/$PLATFORM".toList else []) ++
      "/injector.exe".toList ++ port ++
      (if (getenv env "SP_AGENT_DIR").isSome then " $SP_AGENT_DIR".toList else " ./".toList) ++ agent
  else
    snprintf 1024 ("ssh ".toList ++ st.remoteIp ++ " -t 'bash -l -c \"".toList) ++
      "\\$SP_DIR/\\$PLATFORM".toList ++ "/injector.exe".toList ++ port ++ " \\$SP_AGENT_DIR".toList ++
      agent ++ "\"' 2>&1 | tee -a ./tmp/injector_log".toList

def exits (env : List Str) : Bool := (getenv env "SP_DEBUG").isSome || (getenv env "SP_FDEBUG").isSome

def clearPreload (st : Steps) (env : List Str) : Option (List Str) :=
  match getenv env "LD_PRELOAD" with
  | some _ =>
    if st.unsetenvFails then if exits env then none else some env
    else some (unsetenv "LD_PRELOAD" env)
  | none => some env

/-- From `popen` on: whether the channel is injected, and the environment that is left. -/
def runInjector (st : Steps) (env cleared : List Str) : Option (Bool × List Str) :=
  let libs := (getenv env "LD_PRELOAD").getD []
  match st.popen (injectCommand st env) cleared with
  | none => some (false,cleared)
  | some lines =>
    let success := lines.any fun line => "SUCCESS".toList <:+: line
    if st.setenvFails then if exits cleared then none else some (success,cleared)
    else some (success,setenv "LD_PRELOAD" libs cleared)

/-- There is no result where the process ends. -/
def inject (st : Steps) (injected : Bool) (env : List Str) : Option (Bool × List Str) :=
  if injected then some (true,env)
  else if !st.addressFound && exits env then none
  else (clearPreload st env).bind (runInjector st env)

def SameEnvironment (env env' : List Str) : Prop :=
  ∀ name : String, '=' ∉ name.toList → getenv env' name = getenv env name

/-- The environment is intact unless the process ends in the call. -/
def Intact (st : Steps) (injected : Bool) (env : List Str) : Prop :=
  ∀ r, inject st injected env = some r → SameEnvironment env r.2

/-- Where `LD_PRELOAD` is set, it is not taken out or both `popen` and `setenv` succeed; where
it is not, `popen` or `setenv` fails. -/
def Restored (st : Steps) (env : List Str) : Prop :=
  if (getenv env "LD_PRELOAD").isSome then
    st.unsetenvFails = true ∨
      (st.popen (injectCommand st env) (unsetenv "LD_PRELOAD" env)).isSome = true ∧
        (st.setenvFails = true → exits env = true)
  else st.popen (injectCommand st env) env = none ∨ st.setenvFails = true

section
variable {st : Steps} {env : List Str}

theorem SameEnvironment.refl (env : List Str) : SameEnvironment env env := fun _ _ => rfl

theorem preload_unlike {name : String} (plain : '=' ∉ name.toList) (different : name ≠ "LD_PRELOAD") (v : Str) :
    ¬Defines name (key "LD_PRELOAD" ++ v) :=
  unlike_of_plain (by decide) plain different.symm v

/-- Where only `LD_PRELOAD` may differ, the environments are the same just when it does not. -/
theorem same_iff {env' : List Str} (others : ∀ name : String, '=' ∉ name.toList → name ≠ "LD_PRELOAD" →
    getenv env' name = getenv env name) :
    SameEnvironment env env' ↔ getenv env' "LD_PRELOAD" = getenv env "LD_PRELOAD" := by
  constructor
  · intro same
    exact same "LD_PRELOAD" (by decide)
  · intro same name plain
    by_cases preload : name = "LD_PRELOAD"
    · rw [preload,same]
    · exact others name plain preload

theorem same_setenv {libs : Str} : SameEnvironment env (setenv "LD_PRELOAD" libs env) ↔
    getenv env "LD_PRELOAD" = some libs := by
  rw [same_iff fun _ plain different => getenv_setenv_other (preload_unlike plain different) libs env,
    getenv_setenv,eq_comm]

theorem same_unsetenv : SameEnvironment env (unsetenv "LD_PRELOAD" env) ↔ getenv env "LD_PRELOAD" = none := by
  rw [same_iff fun _ plain different => getenv_unsetenv_other (preload_unlike plain different) env,
    getenv_unsetenv,eq_comm]

theorem same_restored {libs : Str} : SameEnvironment env (setenv "LD_PRELOAD" libs (unsetenv "LD_PRELOAD" env)) ↔
    getenv env "LD_PRELOAD" = some libs := by
  have others : ∀ name : String, '=' ∉ name.toList → name ≠ "LD_PRELOAD" →
      getenv (setenv "LD_PRELOAD" libs (unsetenv "LD_PRELOAD" env)) name = getenv env name := by
    intro name plain different
    rw [getenv_setenv_other (preload_unlike plain different),getenv_unsetenv_other (preload_unlike plain different)]
  rw [same_iff others,getenv_setenv,eq_comm]

theorem exits_unsetenv : exits (unsetenv "LD_PRELOAD" env) = exits env := by
  unfold exits
  rw [getenv_unsetenv_other (preload_unlike (by decide) (by decide)),
    getenv_unsetenv_other (preload_unlike (by decide) (by decide))]

theorem intact_unset (unset : getenv env "LD_PRELOAD" = none) :
    (∀ r, runInjector st env env = some r → SameEnvironment env r.2) ↔
      st.popen (injectCommand st env) env = none ∨ st.setenvFails = true := by
  unfold runInjector
  rw [unset]
  cases answer : st.popen (injectCommand st env) env with
  | none => simp [SameEnvironment.refl]
  | some lines =>
    cases fails : st.setenvFails with
    | true => cases exits env <;> simp [SameEnvironment.refl]
    | false => simp [same_setenv,unset]

theorem intact_kept {v : Str} (set : getenv env "LD_PRELOAD" = some v) :
    ∀ r, runInjector st env env = some r → SameEnvironment env r.2 := by
  unfold runInjector
  rw [set]
  cases answer : st.popen (injectCommand st env) env with
  | none => simp [SameEnvironment.refl]
  | some lines =>
    cases fails : st.setenvFails with
    | true => cases exits env <;> simp [SameEnvironment.refl]
    | false => simp [same_setenv,set]

theorem intact_cleared {v : Str} (set : getenv env "LD_PRELOAD" = some v) :
    (∀ r, runInjector st env (unsetenv "LD_PRELOAD" env) = some r → SameEnvironment env r.2) ↔
      (st.popen (injectCommand st env) (unsetenv "LD_PRELOAD" env)).isSome = true ∧
        (st.setenvFails = true → exits env = true) := by
  unfold runInjector
  rw [set]
  cases answer : st.popen (injectCommand st env) (unsetenv "LD_PRELOAD" env) with
  | none => simp [same_unsetenv,set]
  | some lines =>
    rw [exits_unsetenv]
    cases fails : st.setenvFails with
    | true => cases ends : exits env <;> simp [same_unsetenv,set]
    | false => simp [same_restored,set]

end

/-- Injection leaves the environment intact just when it does not begin, ends the process
before, or restores `LD_PRELOAD`. -/
theorem injection_intact_iff (st : Steps) (injected : Bool) (env : List Str) : Intact st injected env ↔
    injected = true ∨ (st.addressFound = false ∧ exits env = true) ∨ Restored st env := by
  unfold Intact inject Restored
  cases injected with
  | true => simp [SameEnvironment.refl]
  | false =>
    by_cases ends : st.addressFound = false ∧ exits env = true
    · simp [ends]
    · have going : (!st.addressFound && exits env) = false := by simpa using ends
      simp only [going,ends,Bool.false_eq_true,if_false,false_or]
      cases preload : getenv env "LD_PRELOAD" with
      | none => simpa [clearPreload,preload] using intact_unset preload
      | some v =>
        cases fails : st.unsetenvFails with
        | true =>
          cases stops : exits env with
          | true => simp [clearPreload,preload,fails,stops]
          | false => simpa [clearPreload,preload,fails,stops] using intact_kept preload
        | false => simpa [clearPreload,preload,fails] using intact_cleared preload

def localPeer (answer : Option (List Str)) : Steps :=
  ⟨true,"127.0.0.1".toList,"80".toList,"libagent.so".toList,false,fun _ _ => answer,false⟩

/-- The variable comes into being empty, and is lost when `popen` fails. -/
theorem injection_not_intact : ¬Intact (localPeer (some ["SUCCESS".toList])) false [] ∧
    ¬Intact (localPeer none) false ["LD_PRELOAD=libagent.so".toList] := by
  constructor
  · intro intact
    have same := intact (true,["LD_PRELOAD=".toList]) (by decide +kernel) "LD_PRELOAD" (by decide)
    exact absurd same (by decide +kernel)
  · intro intact
    have same := intact (false,[]) (by decide +kernel) "LD_PRELOAD" (by decide)
    exact absurd same (by decide +kernel)

end SelfPropelled.TcpInjection
