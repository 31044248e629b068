import SelfPropelled.Machine.Memory

/-! Code generation of `snippet-x86_64.cc`: each emitter as the bytes it writes.
An emitter whose bytes depend on where it writes takes that address. -/

namespace SelfPropelled
open Machine

/-- Is 32-bit displacement? The bounds are the ones of the source, which leave
out two values at the top and one at the bottom of the 32-bit range. -/
def isDisp32 (d : Word) : Bool := d.toInt < 2147483646 && -2147483647 ≤ d.toInt

def isDisp8 (d : Word) : Bool := d.toInt < 127 && -128 ≤ d.toInt

def emitMovImm64Rdi (imm : Word) : List Byte := [0x48,0xbf] ++ toBytes 8 imm

def emitMovImm64Rsi (imm : Word) : List Byte := [0x48,0xbe] ++ toBytes 8 imm

/-- The point always, the payload function only when there is one. -/
def emitPassParam (point payload : Word) : List Byte :=
  emitMovImm64Rdi point ++ if payload ≠ 0 then emitMovImm64Rsi payload else []

/-- Emulate to push an imm64 in stack: four 16-bit pushes, the top word first. -/
def emitPushImm64 (imm : Word) : List Byte :=
  [3,2,1,0].flatMap fun i =>
    [0x66,0x68] ++ toBytes 2 ((imm.sshiftRight (16 * i) &&& 0xffff).setWidth 16)

def emitCallAbs (callee p : Word) : List Byte :=
  let retaddr := p + 5
  let relAddr := callee - retaddr
  if isDisp32 relAddr then 0xe8 :: toBytes 4 (relAddr.setWidth 32)
  else [0x49,0xbb] ++ toBytes 8 callee ++ [0x41,0xff,0xd3]

def emitJumpAbs (trg p : Word) (abs : Bool) : List Byte :=
  let retaddr := p + 5
  let relAddr := trg - retaddr
  if isDisp32 relAddr && !abs then 0xe9 :: toBytes 4 (relAddr.setWidth 32)
  else emitPushImm64 trg ++ [0xc3]

/-- The upper bound for a jump instruction. -/
def jumpAbsSize : Nat := 17

def emitXMMRegsSaveRestore (isRestore : Bool) : List Byte :=
  (List.range 8).flatMap fun xmmReg =>
    [0x66,0x0f,if isRestore then 0x6f else 0x7f] ++
      if xmmReg = 0 then [0x00]
      else [BitVec.ofNat 8 (0x40 + 0x8 * xmmReg),BitVec.ofNat 8 (xmmReg * 16)]

/-- Save floating point registers: shift the stack pointer down, index from
%rax, and push once more to align the stack pointer again. -/
def emitSaveFpRegisters (isTailCall : Bool) : List Byte :=
  (if !isTailCall then [0x48,0x8d,0xa4,0x24,0x78,0xff,0xff,0xff]
    else [0x48,0x8d,0xa4,0x24,0x70,0xff,0xff,0xff]) ++
  [0x48,0x8b,0xc4] ++
  [0x48,0x05,0x08,0x00,0x00,0x00] ++
  emitXMMRegsSaveRestore false ++
  [0x50]

def emitRestoreFpRegisters (isTailCall : Bool) : List Byte :=
  [0x58] ++
  [0x48,0x8b,0xc4] ++
  [0x48,0x05,0x08,0x00,0x00,0x00] ++
  emitXMMRegsSaveRestore true ++
  (if !isTailCall then [0x48,0x8d,0xa4,0x24,0x88,0x00,0x00,0x00]
    else [0x48,0x8d,0xa4,0x24,0x90,0x00,0x00,0x00])

/-- Save stack pointer into the snippet's `saved_context_loc_`, found at `loc`. -/
def emitSaveSp (loc : Word) : List Byte := [0x48,0xb8] ++ toBytes 8 loc ++ [0x48,0x89,0x20]

/-- Save context before calling payload. Eight more registers are saved for an
indirect call; every caller of the source keeps the floating point part on. -/
def emitSave (indirect isTailCall : Bool) (loc : Word) : List Byte :=
  [0x57,0x56,0x52,0x51,0x41,0x50,0x41,0x51,0x50] ++
  [0x9f,0x0f,0x90,0xc0] ++
  [0x50] ++
  emitSaveSp loc ++
  (if indirect then [0x41,0x52,0x41,0x53,0x53,0x41,0x54,0x41,0x55,0x41,0x56,0x41,0x57,0x55] else []) ++
  emitSaveFpRegisters isTailCall

def emitRestore (indirect isTailCall : Bool) : List Byte :=
  emitRestoreFpRegisters isTailCall ++
  (if indirect then [0x5d,0x41,0x5f,0x41,0x5e,0x41,0x5d,0x41,0x5c,0x5b,0x41,0x5b,0x41,0x5a] else []) ++
  [0x58] ++
  [0x80,0xc0,0x7f,0x9e] ++
  [0x58,0x41,0x59,0x41,0x58,0x59,0x5a,0x5e,0x5f]

end SelfPropelled
