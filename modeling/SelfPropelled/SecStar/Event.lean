import SelfPropelled.Library.Dict

/-! The visualizer's events and traces. A value that Python may leave as `None` is an option. -/

namespace SelfPropelled.SecStar
open Library

abbrev Str := List Char

/-- The classes of events with what each adds to the time and the process. -/
inductive Kind
  | fork (child : Option Str)
  | clone (child : Option Str)
  | connect (trgHost trgPort : Option Str) (trgPid : Str)
  | send (trgHost trgPid : Option Str)
  | recv (trgHost trgPort : Option Str)
  | accept (trgHost trgPort : Option Str)
  | exit (exitCode : Option Str)
  | seteuid (newEuid : Option Str)
  | exec (newExe : Str) (exeType : Str) (argvs envs directoryFd flags : Option Str)
  | open (theFile : Option Str) (openType : Str) (mode directoryFd flags : Option Str)
  | chown (theFile : Option Str) (chfileType : Str) (owner group directoryFd flags : Option Str)
  | chroot (newDirectory : Option Str)
  | chdir (newDirectory : Option Str)
deriving DecidableEq

structure Event where
  time : Str
  host : Option Str
  pid : Option Str
  kind : Kind
deriving DecidableEq

/-- What a trace file gives about its process. A trace of an unknown type is `None` in the
list of events. -/
structure Trace where
  hostname : Option Str
  pid : Option Str
  ppid : Option Str
  parentExe : Str
  initExe : Str
  initEuid : Option Str
  initWorkingDir : Option Str
  eventList : List (Option Event)
  portList : List (Option Str)
deriving DecidableEq

/-- `"%s" % value` -/
def format : Option Str → Str
  | some s => s
  | none => "None".toList

/-- host → pid → trace -/
abbrev TraceMap := Dict Str (Dict Str Trace)

/-- `trace_map[host][pid]`, where a missing key raises `KeyError`. -/
def TraceMap.trace? (m : TraceMap) (host pid : Option Str) : Option Trace :=
  host.bind fun h => pid.bind fun p => Dict.get2 m h p

/-- Up to the first `@`, and what follows it. -/
def partitionAt (s : Str) : Str × Str := (s.takeWhile (· ≠ '@'),(s.dropWhile (· ≠ '@')).drop 1)

def pidhostOf (pid host : Option Str) : Str := format pid ++ '@' :: format host

namespace Event

def pidhost (e : Event) : Str := pidhostOf e.pid e.host

/-- The child of a fork or clone event. -/
def child? (e : Event) : Option (Option Str) :=
  match e.kind with
  | .fork child => some child
  | .clone child => some child
  | _ => none

theorem child?_eq_some {e : Event} {child : Option Str} :
    e.child? = some child ↔ e.kind = .fork child ∨ e.kind = .clone child := by
  unfold child?
  cases e.kind <;> simp

end Event

end SelfPropelled.SecStar
