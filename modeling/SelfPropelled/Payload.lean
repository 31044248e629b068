import Mathlib

/-! The payload wrappers of `payload.cc`, one access at a time: the re-entrancy
flag `inTramp`, the guard around it, the payload with the calls it makes
itself, and the stack of call handles. -/

namespace SelfPropelled.Payload

abbrev Point := Nat

/-- One execution of a call at an instrumented point: its number, the callee found for
it at its entry, and what the entry payload returns for it. -/
structure Instance where
  id : Nat
  pt : Point
  callee : Option Nat
  info : Nat
deriving DecidableEq, Repr

/-- A handle, with the execution it was made for. -/
structure PointCallHandle where
  id : Nat
  pt : Point
  callee : Option Nat
  userInfo : Nat
  returnValue : Nat
deriving DecidableEq, Repr

/-- A call of a wrapper by generated code: for which execution or at which point, what
the original function returns, and the wrapper calls that instrumented code makes
while the payload runs. One exit can run the payload several times. -/
inductive Invocation
  | entry (call : Instance) (inner : List Invocation)
  | exit (pt : Point) (ret : Nat) (inner : Nat → List Invocation)

inductive Pc
  | test | guardRead | guardSet | body | running | push | pop | leave
deriving DecidableEq, Repr

/-- What a thread has done, for an observer. -/
inductive Action
  | ipcBeforeEntry (pt : Point)
  | threadBeforeEntry (pt : Point)
  | entryPayload (h : PointCallHandle)
  | push (h : PointCallHandle)
  | pop (h : PointCallHandle)
  | ipcBeforeExit (h : PointCallHandle)
  | parseDlExit (pt : Point)
  | exitPayload (h : PointCallHandle)
deriving DecidableEq, Repr

/-- What the wrappers ask the context, and which payloads they are given. -/
structure Context where
  ipcEnabled : Bool
  multithreadEnabled : Bool
  handleDlopenEnabled : Bool
  hasEntry : Point → Bool
  hasExit : Point → Bool

structure Frame where
  inv : Invocation
  pc : Pc
  handle : PointCallHandle
  inner : List Invocation
  popped : Nat

inductive Failure
  | guardError
  | emptyStack
deriving DecidableEq, Repr

/-- A thread: its wrappers in progress, the innermost first, the wrapper calls
still to come, and its own stack of call handles. -/
structure Thread where
  frames : List Frame
  todo : List Invocation
  stack : List PointCallHandle
  log : List Action
  failed : Option Failure

def nullHandle : PointCallHandle := ⟨0,0,none,0,0⟩

def Instance.handle (call : Instance) : PointCallHandle := ⟨call.id,call.pt,call.callee,0,0⟩

def Frame.start (inv : Invocation) : Frame := ⟨inv,.test,nullHandle,[],0⟩

def Context.entryRuns (c : Context) (call : Instance) : Bool := call.callee.isSome && c.hasEntry call.pt

def Context.entryActions (c : Context) (h : PointCallHandle) : List Action :=
  if h.callee.isSome then
    (if c.ipcEnabled then [.ipcBeforeEntry h.pt] else []) ++
      (if c.multithreadEnabled then [.threadBeforeEntry h.pt] else []) ++
      (if c.hasEntry h.pt then [.entryPayload h] else [])
  else []

/-- Before the exit payload of the wrapper's point runs for a handle. -/
def Context.exitActions (c : Context) (pt : Point) (h : PointCallHandle) : List Action :=
  (if c.ipcEnabled then [.ipcBeforeExit h] else []) ++
    (if c.handleDlopenEnabled then [.parseDlExit h.pt] else []) ++
    (if c.hasExit pt then [.exitPayload h] else [])

/-- The next step of the innermost wrapper, with `rest` around it. -/
def wrapperStep (c : Context) (inTramp : Bool) (th : Thread) (f : Frame) (rest : List Frame) :
    Bool × Thread :=
  let goto (f : Frame) : Thread := {th with frames := f :: rest}
  match f.pc with
  | .test =>
    if inTramp then (inTramp,{th with frames := rest})
    else (inTramp,goto {f with pc := .guardRead})
  | .guardRead =>
    if inTramp then (inTramp,{th with failed := some .guardError})
    else (inTramp,goto {f with pc := .guardSet})
  | .guardSet => (true,goto {f with pc := match f.inv with
      | .entry _ _ => .body
      | .exit _ _ _ => .pop})
  | .body =>
    match f.inv with
    | .entry call inner =>
      (inTramp,{goto {f with pc := .running, handle := call.handle, inner := if c.entryRuns call then inner else []}
        with log := th.log ++ c.entryActions call.handle})
    | .exit pt _ inner =>
      (inTramp,{goto {f with pc := .running, inner := if c.hasExit pt then inner f.popped else []}
        with log := th.log ++ c.exitActions pt f.handle})
  | .running =>
    match f.inner with
    | call :: inner => (inTramp,{th with frames := Frame.start call :: {f with inner := inner} :: rest})
    | [] =>
      match f.inv with
      | .entry call _ => (inTramp,goto {f with pc := .push, handle :=
          {f.handle with userInfo := if c.entryRuns call then call.info else 0}})
      | .exit pt _ _ =>
        (inTramp,goto (if pt ≠ f.handle.pt then {f with pc := .pop, popped := f.popped + 1}
          else {f with pc := .leave}))
  | .push => (inTramp,{goto {f with pc := .leave} with
      stack := f.handle :: th.stack, log := th.log ++ [.push f.handle]})
  | .pop =>
    match f.inv, th.stack with
    | .exit _ ret _, h :: stack => (inTramp,{goto {f with pc := .body, handle := {h with returnValue := ret}}
        with stack := stack, log := th.log ++ [.pop h]})
    | _, _ => (inTramp,{th with failed := some .emptyStack})
  | .leave => (false,{th with frames := rest})

/-- The next step of a thread that finds the flag so. A failed thread, and one
with nothing left to do, stays. -/
def threadStep (c : Context) (inTramp : Bool) (th : Thread) : Bool × Thread :=
  if th.failed.isSome then (inTramp,th)
  else match th.frames with
    | f :: rest => wrapperStep c inTramp th f rest
    | [] => match th.todo with
      | [] => (inTramp,th)
      | call :: todo => (inTramp,{th with frames := [Frame.start call], todo := todo})

def Thread.initial (program : List Invocation) : Thread := ⟨[],program,[],[],none⟩

def soloStep (c : Context) (s : Bool × Thread) : Bool × Thread := threadStep c s.1 s.2

end SelfPropelled.Payload
