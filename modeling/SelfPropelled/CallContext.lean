import SelfPropelled.Library.Run
import SelfPropelled.ContextSwitch
import SelfPropelled.Machine.Frame

/-! The saved context as the payloads read it. Every activation of a snippet,
in any thread, runs the save sequence on the shared memory, one instruction at
a time; the address of its context goes to a field of the snippet that all
activations of the point share, and the payload reads the field and then the
stack words it leads to. -/

namespace SelfPropelled.CallContext
open Library Machine

structure Site where
  savedContextLoc : Word
  indirect : Bool
  isTailCall : Bool

/-- Offsets of `saved_reg_map_`; the stack pointer is not in it. -/
def savedRegMap : Reg → Option Int
  | .rax => some 8 | .r9 => some 16 | .r8 => some 24 | .rcx => some 32 | .rdx => some 40
  | .rsi => some 48 | .rdi => some 56 | .r10 => some (-8) | .r11 => some (-16) | .rbx => some (-24)
  | .r12 => some (-32) | .r13 => some (-40) | .r14 => some (-48) | .r15 => some (-56)
  | .rbp => some (-64) | .rsp => none

def rspOffset : Word := 64

def regVal (m : Memory) (loc : Word) (offset : Int) : Word := load 64 m (loc + BitVec.ofInt 64 offset)

def getSavedReg (m : Memory) (loc : Word) (r : Reg) : Word :=
  match savedRegMap r with
  | some offset => regVal m loc offset
  | none => loc + rspOffset

def getRetVal (m : Memory) (loc : Word) : Word := getSavedReg m loc .rax

structure ArgumentHandle where
  offset : Nat
  num : Nat
deriving DecidableEq, Repr

def argReg : Nat → Reg
  | 0 => .rdi | 1 => .rsi | 2 => .rdx | 3 => .rcx | 4 => .r8 | _ => .r9

/-- `PopArgument` hands out a buffer with a copy of a register or the address of a stack slot. -/
inductive Popped
  | buffer (bytes : List Byte)
  | slot (a : Word)
deriving DecidableEq, Repr

def popArgument (m : Memory) (loc : Word) (h : ArgumentHandle) (size : Nat) : Popped × ArgumentHandle :=
  if h.num < 6 then
    (.buffer ((toBytes 8 (getSavedReg m loc (argReg h.num))).take size),{h with num := h.num + 1})
  else (.slot (loc + rspOffset + BitVec.ofNat 64 h.offset),⟨h.offset + size,h.num + 1⟩)

/-- A question of a payload to the snippet of a point. -/
inductive Query
  | savedReg (r : Reg)
  | retVal
  | argument (h : ArgumentHandle) (size : Nat)
deriving DecidableEq, Repr

inductive Answer
  | value (v : Word)
  | popped (p : Popped)
deriving DecidableEq, Repr

def Query.ask (m : Memory) (loc : Word) : Query → Answer
  | .savedReg r => .value (getSavedReg m loc r)
  | .retVal => .value (getRetVal m loc)
  | .argument h size => .popped (popArgument m loc h size).1

/-- An activation of a snippet, before the call or after it: the machine state it
started with, the one it is in, what is left of the save sequence, the field's
value between the two reads of a query, and what its payload was told. -/
structure Activation (P : Type) where
  tid : Nat
  point : P
  start : State
  cpu : State
  todo : List Op
  fetched : Option Word
  seen : List (Query × Answer)

/-- The shared memory and the activations in progress, a thread's innermost first. -/
structure System (P : Type) where
  mem : Memory
  acts : List (Activation P)

inductive Act (P : Type)
  | enter (point : P) (cpu : State)
  | exec
  | fetch (asked : P)
  | answer (q : Query)
  | leave
  | write (a : Word) (v : Byte)

section
variable {P : Type}

def replace (tid : Nat) (f : Activation P → List (Activation P)) : List (Activation P) → List (Activation P)
  | [] => []
  | a :: rest => if a.tid = tid then f a ++ rest else a :: replace tid f rest

def System.innermost (s : System P) (tid : Nat) : Option (Activation P) := s.acts.find? (·.tid == tid)

def System.others (s : System P) (tid : Nat) : List (Activation P) := replace tid (fun _ => []) s.acts

variable (sites : P → Site)

def saveSequence (p : P) : List Op :=
  saveOps (sites p).indirect (sites p).isTailCall (sites p).savedContextLoc

/-- One step of one thread. A payload runs when the save sequence is through. -/
def step (s : System P) (input : Nat × Act P) : System P :=
  let update (f : Activation P → List (Activation P)) : System P :=
    {s with acts := replace input.1 f s.acts}
  match input.2, s.innermost input.1 with
  | .enter p cpu, _ =>
    {s with acts := ⟨input.1,p,{cpu with mem := s.mem},cpu,saveSequence sites p,none,[]⟩ :: s.acts}
  | .write a v, _ => {s with mem := fun x => if x = a then v else s.mem x}
  | .exec, some a =>
    match a.todo with
    | [] => s
    | op :: rest =>
      match op.apply {a.cpu with mem := s.mem} with
      | none => s
      | some t => {update fun a => [{a with cpu := t, todo := rest}] with mem := t.mem}
  | .fetch asked, some a =>
    if a.todo = [] then update fun a =>
      [{a with fetched := some (load 64 s.mem (sites asked).savedContextLoc)}]
    else s
  | .answer q, some a =>
    match a.fetched with
    | none => s
    | some loc => update fun a => [{a with fetched := none, seen := a.seen ++ [(q,q.ask s.mem loc)]}]
  | .leave, some _ => update fun _ => []
  | _, none => s

def Activation.size (a : Activation P) : Nat :=
  contextSize (sites a.point).indirect (sites a.point).isTailCall

def Activation.low (a : Activation P) : Word := a.start.reg .rsp - BitVec.ofNat 64 (a.size sites)

def saveStore : Op := .movStore ⟨some .rax,none,0⟩ .rsp

/-- Where the calling convention puts an argument that is not in a register. -/
def argSlot (isTailCall : Bool) (start : State) (i : Nat) : Word :=
  start.reg .rsp + (if isTailCall then 8 else 0) + BitVec.ofNat 64 (8 * (i - 6))

/-- What a query should tell about the call instance that started so. -/
def Query.own (site : Site) (start : State) : Query → Answer
  | .savedReg r => .value (start.reg r)
  | .retVal => .value (start.reg .rax)
  | .argument h size => .popped (
      if h.num < 6 then .buffer ((toBytes 8 (start.reg (argReg h.num))).take size)
      else .slot (argSlot site.isTailCall start h.num))

def Site.Keeps (site : Site) (r : Reg) : Prop :=
  r = .rsp ∨ r ∈ savedRegs ∨ r ∈ indirectRegs site.indirect

instance (site : Site) (r : Reg) : Decidable (site.Keeps r) := by unfold Site.Keeps; infer_instance

/-- The context holds what is asked for. -/
def Query.Kept (site : Site) : Query → Prop
  | .savedReg r => site.Keeps r
  | .retVal => True
  | .argument h size => if h.num < 6 then size ≤ 8
      else site.isTailCall = false ∧ h.offset = 8 * (h.num - 6)

/-- What the operating system and the program around the snippets guarantee:
contexts on stacks of their own, and nobody else writing to them or to the fields. -/
def Respects (s : System P) : Nat × Act P → Prop
  | (_,.enter p cpu) =>
    let site := sites p
    let size := contextSize site.indirect site.isTailCall
    let low := cpu.reg .rsp - BitVec.ofNat 64 size
    AlignedFor site.isTailCall (cpu.reg .rsp) ∧
      (∀ q, Apart low size (sites q).savedContextLoc 8) ∧
      ∀ b ∈ s.acts, Apart low size (b.low sites) (b.size sites)
  | (_,.write a _) => (∀ b ∈ s.acts, ¬In (b.low sites) (b.size sites) a) ∧
      ∀ q, ¬In (sites q).savedContextLoc 8 a
  | _ => True

/-- No activation stores to the field of its point while another one that already
has is still there, and a payload asks the point it runs for, for what is kept. -/
def Undisturbed (s : System P) : Nat × Act P → Prop
  | (tid,.exec) => ∀ a, s.innermost tid = some a → a.todo.head? = some saveStore →
      ∀ b ∈ s.others tid, b.point = a.point → saveStore ∈ b.todo
  | (tid,.fetch asked) => ∀ a, s.innermost tid = some a → asked = a.point
  | (tid,.answer q) => ∀ a, s.innermost tid = some a → q.Kept (sites a.point)
  | _ => True

end

end SelfPropelled.CallContext
