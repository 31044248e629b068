import SelfPropelled.CodeGen

/-! Instruction relocation of `snippet-x86_64.cc`, over what InstructionAPI
reports about an instruction. -/

namespace SelfPropelled
open Machine

inductive MachRegister
  | rip
  | other (id : Nat)
deriving DecidableEq, Repr

inductive Expression
  | register (r : MachRegister)
  | immediate (v : Word)
  | add (l r : Expression)
  | multiply (l r : Expression)
  | dereference (e : Expression)
deriving DecidableEq, Repr

/-- What a visitor applied to the expression finds: does it name the PC? -/
def Expression.usePC : Expression → Bool
  | .register r => r == .rip
  | .immediate _ => false
  | .add l r => l.usePC || r.usePC
  | .multiply l r => l.usePC || r.usePC
  | .dereference e => e.usePC

/-- The value once the PC is bound; a dereference stops the evaluation. -/
def Expression.eval (pc : Word) : Expression → Option Word
  | .register r => if r = .rip then some pc else none
  | .immediate v => some v
  | .add l r => do return (← l.eval pc) + (← r.eval pc)
  | .multiply l r => do return (← l.eval pc) * (← r.eval pc)
  | .dereference _ => none

/-- A register in an operand expression; two nodes may name one register. -/
structure RegisterNode where
  node : Nat
  reg : MachRegister
deriving DecidableEq, Repr

/-- An instruction with the operands its decoder lists, the sets in the order of
their iteration. `accessSet` is what `getWriteSet` leaves in a set that holds
the read set already. -/
structure Instruction where
  raw : List Byte
  readsMemory : Bool
  writesMemory : Bool
  memoryReadOperands : List Expression
  memoryWriteOperands : List Expression
  readSet : List RegisterNode
  accessSet : List RegisterNode
  operands : List Expression
  controlFlowTarget : Option Expression
deriving DecidableEq, Repr

/-- Helpers of the x86 decoder library that relocation calls. -/
structure ArchX86 where
  isDisp32 : Word → Bool
  isAddr32 : Word → Bool
  countPrefixes : List Byte → Nat

/-- The target address an instruction at `a` computes from the PC: first over
its memory operands, then over all operands, where an undefined value fails
an assertion. -/
def getTargetAddr (a : Word) (insn : Instruction) : Option (Option Word) :=
  let pc := a + BitVec.ofNat 64 insn.raw.length
  let mems := insn.memoryReadOperands ++ insn.memoryWriteOperands
  match (mems.filter (·.usePC)).findSome? (·.eval pc) with
  | some targetAddr => some (some targetAddr)
  | none =>
    match insn.operands.find? (·.usePC) with
    | none => some none
    | some exp => (exp.eval pc).map some

def Fits32 (d : Word) : Prop := -2147483648 ≤ d.toInt ∧ d.toInt < 2147483648

instance (d : Word) : Decidable (Fits32 d) := inferInstanceAs (Decidable (_ ∧ _))

theorem signExtend_setWidth_iff (d : Word) : (d.setWidth 32).signExtend 64 = d ↔ Fits32 d := by
  rw [← BitVec.toInt_inj,BitVec.toInt_signExtend_of_le (by decide),BitVec.toInt_setWidth,Fits32,
    BitVec.toInt_eq_toNat_cond,Int.bmod]
  have bound := d.isLt
  split <;> split <;> omega

theorem getTargetAddr_memory {a : Word} {insn : Instruction} {disp : Word}
    (operand : ∃ e ∈ insn.memoryReadOperands ++ insn.memoryWriteOperands, e.usePC = true)
    (value : ∀ e ∈ insn.memoryReadOperands ++ insn.memoryWriteOperands, e.usePC = true →
      ∀ pc, e.eval pc = some (pc + disp)) :
    getTargetAddr a insn = some (some (a + BitVec.ofNat 64 insn.raw.length + disp)) := by
  obtain ⟨e,listed,uses⟩ := operand
  have first : ((insn.memoryReadOperands ++ insn.memoryWriteOperands).filter (·.usePC)).findSome?
      (·.eval (a + BitVec.ofNat 64 insn.raw.length)) =
        some (a + BitVec.ofNat 64 insn.raw.length + disp) := by
    cases found : (insn.memoryReadOperands ++ insn.memoryWriteOperands).filter (·.usePC) with
    | nil =>
      have member : e ∈ (insn.memoryReadOperands ++ insn.memoryWriteOperands).filter (·.usePC) :=
        List.mem_filter.mpr ⟨listed,uses⟩
      rw [found] at member
      cases member
    | cons q qs =>
      have member : q ∈ (insn.memoryReadOperands ++ insn.memoryWriteOperands).filter (·.usePC) := by
        simp [found]
      obtain ⟨there,names⟩ := List.mem_filter.mp member
      rw [List.findSome?_cons,value q there names]
  simp only [getTargetAddr,first]

theorem getTargetAddr_operand {a : Word} {insn : Instruction} {e : Expression}
    (memory : ∀ e ∈ insn.memoryReadOperands ++ insn.memoryWriteOperands, e.usePC = false)
    (first : insn.operands.find? (·.usePC) = some e) :
    getTargetAddr a insn = (e.eval (a + BitVec.ofNat 64 insn.raw.length)).map some := by
  have none : (insn.memoryReadOperands ++ insn.memoryWriteOperands).filter (·.usePC) = [] := by
    rw [List.filter_eq_nil_iff]
    intro q there
    simp [memory q there]
  simp only [getTargetAddr,none,List.findSome?_nil,first]

def emitRex (is64 : Bool) (b : Nat) : List Byte :=
  let rex : Byte := (if is64 then 0x48 else 0x40) ||| if b &&& 8 ≠ 0 then 1 else 0
  if rex &&& 0x0f ≠ 0 then [rex] else []

def emitPopReg64 (dest : Nat) : List Byte := emitRex false dest ++ [BitVec.ofNat 8 (0x58 + dest % 8)]

def emitPushReg64 (src : Nat) : List Byte := emitRex false src ++ [BitVec.ofNat 8 (0x50 + src % 8)]

/-- The only use of the source is the 64-bit form. -/
def emitMovImmToReg64 (dest : Nat) (imm : Word) : List Byte :=
  emitRex true dest ++ [BitVec.ofNat 8 (0xb8 + dest % 8)] ++ toBytes 8 imm

def opcodeSize (lib : ArchX86) (raw : List Byte) : Nat :=
  let nPrefixes := lib.countPrefixes raw
  nPrefixes + if raw.getD nPrefixes 0 = 0x0f
    then if raw.getD (nPrefixes + 1) 0 = 0x38 ∨ raw.getD (nPrefixes + 1) 0 = 0x3a then 3 else 2
    else 1

/-- Relocate an instruction at `a` to `p`. A PC-sensitive one gets a rewritten
displacement, an absolute address, or the address in a pushed register. -/
def relocInsnInternal (lib : ArchX86) (a : Word) (insn : Instruction) (usePc : Bool) (p : Word) :
    Option (List Byte) :=
  if usePc then do
    let targetAddr := (← getTargetAddr a insn).getD 0
    let insnSz := BitVec.ofNat 64 insn.raw.length
    let newDisp := targetAddr - p
    let start := opcodeSize lib insn.raw
    let opcode := insn.raw.take start
    let modRM := insn.raw.getD start 0
    let rest := insn.raw.drop (start + 5)
    if !lib.isDisp32 (newDisp + insnSz) && !lib.isAddr32 targetAddr then
      let pointerReg := if modRM &&& 0x38 ≠ 0 then 0 else 3
      return emitPushReg64 pointerReg ++ emitMovImmToReg64 pointerReg targetAddr ++ opcode ++
        [(modRM &&& 0xf8) + BitVec.ofNat 8 pointerReg] ++ rest ++ emitPopReg64 pointerReg
    else if lib.isDisp32 (newDisp + insnSz) then
      return opcode ++ [modRM] ++ toBytes 4 ((newDisp - insnSz).setWidth 32) ++ rest
    else
      return opcode ++ [(modRM &&& 0xf8) + 4,0x25] ++ toBytes 4 (targetAddr.setWidth 32) ++ rest
  else some insn.raw

/-- The memory operands `reloc_insn` looks at. -/
def Instruction.opSet (insn : Instruction) : List Expression :=
  if insn.readsMemory then insn.memoryReadOperands
  else if insn.writesMemory then insn.memoryWriteOperands else []

/-- Does `reloc_insn` take the instruction for PC-relative? The loop over the
memory operands keeps the answer of the last one; for the `lea` opcode, looked
for in the second byte, the first PC node of the read set and then of the access
set counts. More than one operand, if any is to count, fails an assertion. -/
def pcPath (insn : Instruction) : Option Bool :=
  let (operands,usePc) :=
    if insn.raw.getD 1 0 ≠ 0x8d then
      (insn.opSet.length,(insn.opSet.getLast?.map (·.usePC)).getD false)
    else
      let readUsePc := insn.readSet.find? (·.reg == .rip)
      let writeUsePc := insn.accessSet.find? (·.reg == .rip)
      ((readUsePc.toList ++ writeUsePc.toList).dedup.length,readUsePc.isSome || writeUsePc.isSome)
  if usePc && operands != 1 then none else some usePc

/-- Relocate an ordinary instruction. The last one of the block, its call, is
left for later. -/
def relocInsn (lib : ArchX86) (srcInsn : Word) (insn : Instruction) (last p : Word) :
    Option (List Byte) :=
  if srcInsn = last then some []
  else do relocInsnInternal lib srcInsn insn (← pcPath insn) p

/-- Relocate a block to `p`, but for its last instruction. -/
def relocBlock (lib : ArchX86) (insns : List (Word × Instruction)) (last p : Word) :
    Option (List Byte) :=
  match insns with
  | [] => some []
  | (a,insn) :: rest => do
    let moved ← relocInsn lib a insn last p
    return moved ++ (← relocBlock lib rest last (p + BitVec.ofNat 64 moved.length))

/-- Relocate the call instruction of a block, at `src`, to `p`. -/
def emitCallOrig (lib : ArchX86) (src : Word) (insn : Instruction) (p : Word) : Option (List Byte) :=
  let usePc := (insn.controlFlowTarget.map (·.usePC)).getD false
  relocInsnInternal lib src insn usePc p

end SelfPropelled
