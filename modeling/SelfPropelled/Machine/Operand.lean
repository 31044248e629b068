import SelfPropelled.Machine.Execution
import SelfPropelled.Machine.OperandBytes

/-! The memory operand of an instruction whose opcode takes a ModRM byte, read
off its bytes whatever the opcode does, and instructions with a RIP-relative one. -/

namespace SelfPropelled.Machine

/-- Legacy prefixes; the address-size override is not among them, since an
operand with it is relative to %eip. -/
def legacyByte (b : Byte) : Bool :=
  [0x66,0xf0,0xf2,0xf3,0x26,0x2e,0x36,0x3e,0x64,0x65].contains b

def isRex (b : Byte) : Bool := b.toNat / 16 == 4

/-- One-byte opcodes that take a ModRM byte. -/
def oneByteModRM (b : Byte) : Bool :=
  b.toNat < 0x40 && b.toNat % 8 < 4 || b.toNat / 16 == 8 || b.toNat / 8 == 0xd8 / 8 ||
    [0x63,0x69,0x6b,0xc0,0xc1,0xc6,0xc7,0xd0,0xd1,0xd2,0xd3,0xf6,0xf7,0xfe,0xff].contains b

/-- One-, two- and three-byte opcodes. -/
def opcodeShape : List Byte → Bool
  | [b] => oneByteModRM b
  | [e,b] => e == 0x0f && b != 0x38 && b != 0x3a
  | [e,b,_] => e == 0x0f && (b == 0x38 || b == 0x3a)
  | _ => false

def opcodeLength : List Byte → Nat
  | e :: b :: _ => if e = 0x0f then if b = 0x38 ∨ b = 0x3a then 3 else 2 else 1
  | _ => 1

def takeRex : List Byte → Prefix × List Byte
  | [] => (.none,[])
  | b :: bs =>
    if isRex b then (⟨false,false,b.getLsbD 3,b.getLsbD 2,b.getLsbD 1,b.getLsbD 0⟩,bs)
    else (.none,b :: bs)

/-- The first bytes of the VEX, EVEX and XOP encodings. -/
inductive Lead
  | vex2
  | vex3
  | evex
  | xop
deriving DecidableEq, Repr

namespace Lead

def byte : Lead → Byte
  | vex2 => 0xc5
  | vex3 => 0xc4
  | evex => 0x62
  | xop => 0x8f

/-- The number of payload bytes after the first. -/
def more : Lead → Nat
  | vex2 => 0
  | vex3 | xop => 1
  | evex => 2

/-- The register bits are in the first payload byte, inverted. -/
def bits (first : Byte) : Lead → Prefix
  | vex2 => ⟨false,false,false,!first.getLsbD 7,false,false⟩
  | vex3 | evex | xop => ⟨false,false,false,!first.getLsbD 7,!first.getLsbD 6,!first.getLsbD 5⟩

end Lead

/-- `0x8f` is a pop where the byte after it names none of the opcode maps from 8 on. -/
def escapeLead (b first : Byte) : Option Lead :=
  if b = 0xc5 then some .vex2
  else if b = 0xc4 then some .vex3
  else if b = 0x62 then some .evex
  else if b = 0x8f ∧ 8 ≤ first.toNat % 32 then some .xop
  else none

/-- The register bits and what stands behind the opcode. -/
def takeEscape : List Byte → Option (Prefix × List Byte)
  | b :: first :: rest => (escapeLead b first).map fun lead => (lead.bits first,rest.drop (lead.more + 1))
  | _ => none

/-- The `r/m` operand of the instruction at the front of a byte stream. -/
def memoryOperand (bs : List Byte) : Option RM :=
  let body := bs.dropWhile legacyByte
  match takeEscape body with
  | some (p,rest) => (decodeModRM p rest).map (·.2.1)
  | none =>
    let (p,body) := takeRex body
    (decodeModRM p (body.drop (opcodeLength body))).map (·.2.1)

/-- The address an operand denotes; `next` is where the next instruction starts. -/
def RM.address (next : Word) (reg : Reg → Word) : RM → Option Word
  | .reg _ => none
  | .mem m => some (m.addr reg)
  | .rip d => some (next + d)

/-- An instruction with a RIP-relative memory operand in a legacy encoding: prefixes, opcode, the
`reg` field, the displacement and an immediate after it. A pop leaves the `reg` field zero. -/
structure RipInsn where
  legacy : List Byte
  rex : Option (BitVec 4)
  opcode : List Byte
  reg : BitVec 3
  disp : BitVec 32
  imm : List Byte
  known : ∀ b ∈ legacy, legacyByte b = true
  shape : opcodeShape opcode = true
  pop : opcode = [0x8f] → reg = 0
  short : legacy.length + (if rex.isSome then 1 else 0) + opcode.length + 5 + imm.length ≤ maxInstrLength

theorem noLegacy : ∀ b ∈ ([] : List Byte), legacyByte b = true := by simp

namespace RipInsn
variable (i : RipInsn)

def rexBytes : List Byte := (i.rex.map fun r => 0x40 ||| r.setWidth 8).toList

def prefixes : List Byte := i.legacy ++ i.rexBytes

def rexBits : Prefix :=
  let r := i.rex.getD 0
  ⟨false,false,r.getLsbD 3,r.getLsbD 2,r.getLsbD 1,r.getLsbD 0⟩

end RipInsn

theorem opcodeShape_cases {ops : List Byte} (shape : opcodeShape ops = true) :
    (∃ b, ops = [b] ∧ oneByteModRM b = true) ∨ (∃ b, ops = [0x0f,b] ∧ b ≠ 0x38 ∧ b ≠ 0x3a) ∨
      ∃ b c, ops = [0x0f,b,c] ∧ (b = 0x38 ∨ b = 0x3a) := by
  match ops, shape with
  | [b], shape => exact .inl ⟨b,rfl,shape⟩
  | [e,b], shape =>
    simp only [opcodeShape,Bool.and_eq_true,beq_iff_eq,bne_iff_ne] at shape
    exact .inr (.inl ⟨b,by rw [shape.1.1],shape.1.2,shape.2⟩)
  | [e,b,c], shape =>
    simp only [opcodeShape,Bool.and_eq_true,Bool.or_eq_true,beq_iff_eq] at shape
    exact .inr (.inr ⟨b,c,by rw [shape.1],shape.2⟩)

theorem oneByteModRM_plain : ∀ b : Byte, oneByteModRM b = true →
    legacyByte b = false ∧ isRex b = false ∧ b ≠ 0x0f ∧ b.toNat / 8 ≠ 0x50 / 8 := by decide

theorem opcode_plain {ops : List Byte} (shape : opcodeShape ops = true) :
    ∃ b rest, ops = b :: rest ∧ legacyByte b = false ∧ isRex b = false ∧ b.toNat / 8 ≠ 0x50 / 8 := by
  rcases opcodeShape_cases shape with ⟨b,rfl,modRM⟩ | ⟨b,rfl,_⟩ | ⟨b,c,rfl,_⟩
  · obtain ⟨legacy,rex,_,push⟩ := oneByteModRM_plain b modRM
    exact ⟨b,[],rfl,legacy,rex,push⟩
  · exact ⟨_,_,rfl,by decide,by decide,by decide⟩
  · exact ⟨_,_,rfl,by decide,by decide,by decide⟩

theorem opcodeLength_shape {ops : List Byte} (shape : opcodeShape ops = true) (m : Byte) (rest : List Byte) :
    opcodeLength (ops ++ m :: rest) = ops.length := by
  rcases opcodeShape_cases shape with ⟨b,rfl,modRM⟩ | ⟨b,rfl,notA,notB⟩ | ⟨b,c,rfl,escape⟩
  · exact if_neg (oneByteModRM_plain b modRM).2.2.1
  · change (if b = 0x38 ∨ b = 0x3a then 3 else 2) = 2
    exact if_neg (not_or.mpr ⟨notA,notB⟩)
  · change (if b = 0x38 ∨ b = 0x3a then 3 else 2) = 3
    exact if_pos escape

theorem escapeLead_none {b first : Byte} (plain : b ≠ 0xc5 ∧ b ≠ 0xc4 ∧ b ≠ 0x62)
    (pop : b = 0x8f → first.toNat % 32 < 8) : escapeLead b first = none := by
  unfold escapeLead
  rw [if_neg plain.1,if_neg plain.2.1,if_neg plain.2.2,if_neg fun map => absurd (pop map.1) (Nat.not_lt.mpr map.2)]

theorem RipInsn.takeEscape_body (i : RipInsn) (m : Byte) (rest : List Byte)
    (pop : i.opcode = [0x8f] → m.toNat % 32 < 8) : takeEscape (i.opcode ++ m :: rest) = none := by
  have oneByte : ∀ b : Byte, oneByteModRM b = true → b ≠ 0xc5 ∧ b ≠ 0xc4 ∧ b ≠ 0x62 := by decide
  rcases opcodeShape_cases i.shape with ⟨b,ops,modRM⟩ | ⟨b,ops,_⟩ | ⟨b,c,ops,_⟩ <;> rw [ops]
  · rw [List.singleton_append,takeEscape,escapeLead_none (oneByte b modRM) fun here => pop (by rw [ops,here])]
    rfl
  · rw [List.cons_append,List.cons_append,takeEscape,escapeLead_none (by decide) fun map => absurd map (by decide)]
    rfl
  · rw [List.cons_append,List.cons_append,takeEscape,escapeLead_none (by decide) fun map => absurd map (by decide)]
    rfl

theorem RipInsn.memoryOperand_body (i : RipInsn) (m : Byte) (rest : List Byte)
    (pop : i.opcode = [0x8f] → m.toNat % 32 < 8) :
    memoryOperand (i.prefixes ++ i.opcode ++ m :: rest) =
      (decodeModRM i.rexBits (m :: rest)).map (·.2.1) := by
  obtain ⟨b,more,opcode,legacy,rexFree,_⟩ := opcode_plain i.shape
  have length := opcodeLength_shape i.shape m rest
  cases rex : i.rex with
  | none =>
    have bits : i.rexBits = .none := by simp [RipInsn.rexBits,rex,Prefix.none]
    have front : (i.prefixes ++ i.opcode ++ m :: rest).dropWhile legacyByte = i.opcode ++ m :: rest := by
      rw [RipInsn.prefixes,RipInsn.rexBytes,rex,List.append_assoc,List.append_assoc,
        List.dropWhile_append_of_pos i.known]
      simp [opcode,legacy]
    have plain : takeRex (i.opcode ++ m :: rest) = (.none,i.opcode ++ m :: rest) := by
      simp [opcode,takeRex,rexFree]
    simp only [memoryOperand,front,i.takeEscape_body m rest pop,plain,bits,length,List.drop_left]
  | some r =>
    have byte : ∀ r : BitVec 4, legacyByte (0x40 ||| r.setWidth 8) = false ∧
        isRex (0x40 ||| r.setWidth 8) = true ∧
        ∀ k < 4, (0x40 ||| r.setWidth 8 : Byte).getLsbD k = r.getLsbD k := by decide
    obtain ⟨notLegacy,here,bits⟩ := byte r
    have front : (i.prefixes ++ i.opcode ++ m :: rest).dropWhile legacyByte =
        (0x40 ||| r.setWidth 8) :: (i.opcode ++ m :: rest) := by
      rw [RipInsn.prefixes,RipInsn.rexBytes,rex,List.append_assoc,List.append_assoc,
        List.dropWhile_append_of_pos i.known,Option.map_some,Option.toList_some,List.singleton_append,
        List.dropWhile_cons_of_neg (Bool.eq_false_iff.mp notLegacy)]
    have taken : takeRex ((0x40 ||| r.setWidth 8) :: (i.opcode ++ m :: rest)) =
        (i.rexBits,i.opcode ++ m :: rest) := by
      simp only [takeRex,here,if_true,RipInsn.rexBits,rex,Option.getD_some,bits 0 (by decide),
        bits 1 (by decide),bits 2 (by decide),bits 3 (by decide)]
    have escape : takeEscape ((0x40 ||| r.setWidth 8) :: (i.opcode ++ m :: rest)) = none := by
      have other : ∀ r : BitVec 4, (0x40 ||| r.setWidth 8 : Byte) ≠ 0x8f ∧ (0x40 ||| r.setWidth 8 : Byte) ≠ 0xc5 ∧
          (0x40 ||| r.setWidth 8 : Byte) ≠ 0xc4 ∧ (0x40 ||| r.setWidth 8 : Byte) ≠ 0x62 := by decide
      rw [opcode,List.cons_append,takeEscape,escapeLead_none (other r).2 fun map => absurd map (other r).1]
      rfl
    simp only [memoryOperand,front,escape,taken,length,List.drop_left]

end SelfPropelled.Machine
