import SelfPropelled.Relocation

/-! Patch-area code of `snippet.cc`: the bytes `BuildBlob` generates for a call
point, as a function of the address they are written to. -/

namespace SelfPropelled
open Machine

/-- A call block as code generation reads it. -/
structure CallBlock where
  insns : List (Word × Instruction)
  last : Word
  origCallInsn : Instruction

/-- What code generation reads from a snippet, its point and the context.
An indirect call has no callee function; a null payload is zero. -/
structure Snippet where
  func : Option Word
  point : Word
  tailcall : Bool
  retAddr : Word
  block : CallBlock
  entry : Word
  exit : Word
  savedContextLoc : Word
  wrapperEntry : Word
  wrapperExit : Word

def Snippet.indirect (snip : Snippet) : Bool := snip.func.isNone

def Snippet.callWrapper (snip : Snippet) (wrapper payload p : Word) : List Byte :=
  let before := emitSave snip.indirect snip.tailcall snip.savedContextLoc ++
    emitPassParam snip.point payload
  before ++ emitCallAbs wrapper (p + BitVec.ofNat 64 before.length)

def Snippet.aroundWrapper (snip : Snippet) (wrapper payload p : Word) : List Byte :=
  snip.callWrapper wrapper payload p ++ emitRestore snip.indirect snip.tailcall

def Snippet.emitExit (snip : Snippet) (p : Word) : List Byte :=
  let code := snip.aroundWrapper snip.wrapperExit snip.exit p
  code ++ emitJumpAbs snip.retAddr (p + BitVec.ofNat 64 code.length) false

/-- Call the original function. A direct tail call jumps to it and needs no exit
part; the source asserts that a return address is there exactly when it is used. -/
def Snippet.emitOrig (lib : ArchX86) (snip : Snippet) (p : Word) : Option (List Byte) :=
  match snip.func with
  | some func =>
    if snip.tailcall then
      if snip.retAddr = 0 then some (emitJumpAbs func p false) else none
    else if snip.retAddr = 0 then none
    else
      let call := emitCallAbs func p
      some (call ++ snip.emitExit (p + BitVec.ofNat 64 call.length))
  | none => do
    let call ← emitCallOrig lib snip.block.last snip.block.origCallInsn p
    return call ++ snip.emitExit (p + BitVec.ofNat 64 call.length)

def Snippet.emitPatch (lib : ArchX86) (snip : Snippet) (p : Word) : Option (List Byte) := do
  let code := snip.aroundWrapper snip.wrapperEntry snip.entry p
  return code ++ (← snip.emitOrig lib (p + BitVec.ofNat 64 code.length))

/-- The code `BuildBlob` writes to a fresh blob at `p`. -/
def Snippet.generate (lib : ArchX86) (snip : Snippet) (reloc : Bool) (p : Word) :
    Option (List Byte) := do
  let moved ← if reloc then relocBlock lib snip.block.insns snip.block.last p else some []
  return moved ++ (← snip.emitPatch lib (p + BitVec.ofNat 64 moved.length))

end SelfPropelled
