import SelfPropelled.Relocation
import SelfPropelled.Transfer
import SelfPropelled.Machine.RipRelative

/-! The memory operand of a relocated instruction, in each of the three
encodings `reloc_insn_internal` chooses from. -/

namespace SelfPropelled
open Machine

/-- What InstructionAPI reports about an instruction with a RIP-relative operand:
it is one of the memory operands, or the address expression of a `lea`. -/
structure Reported (i : RipRelative) (insn : Instruction) : Prop where
  raw : insn.raw = i.raw
  operand :
    ((∃ e ∈ insn.memoryReadOperands ++ insn.memoryWriteOperands, e.usePC = true) ∧
      ∀ e ∈ insn.memoryReadOperands ++ insn.memoryWriteOperands, e.usePC = true →
        ∀ pc, e.eval pc = some (pc + i.disp.signExtend 64)) ∨
    ((∀ e ∈ insn.memoryReadOperands ++ insn.memoryWriteOperands, e.usePC = false) ∧
      ∃ e, insn.operands.find? (·.usePC) = some e ∧ ∀ pc, e.eval pc = some (pc + i.disp.signExtend 64))

theorem Reported.targetAddr {i : RipRelative} {insn : Instruction} (reported : Reported i insn) (a : Word) :
    getTargetAddr a insn = some (some (i.targetAddr a)) := by
  rcases reported.operand with ⟨operand,value⟩ | ⟨memory,e,first,value⟩
  · rw [getTargetAddr_memory operand value,reported.raw]
    rfl
  · rw [getTargetAddr_operand memory first,value,reported.raw]
    rfl

namespace Machine.RipRelative

/-- What the source copies as prefixes and opcode: with an escape only its first byte. -/
def head : RipRelative → List Byte
  | legacy i => i.prefixes ++ i.opcode
  | escaped i => i.segment ++ [i.lead.byte]

/-- What it takes for the ModRM byte. -/
def taken : RipRelative → Byte
  | legacy i => (legacy i).modRM 5
  | escaped i => i.first

/-- What it copies after the displacement: all from the sixth byte behind the head. -/
def rest : RipRelative → List Byte
  | legacy i => i.imm
  | escaped i => (i.more ++ i.opcode :: (escaped i).modRM 5 :: (toBytes 4 i.disp ++ i.imm)).drop 4

/-- What is written behind the head spells the instruction with the given operand. With an escape it is
written over the payload and the opcode, and does so only if it happens to repeat them. -/
def Lands (written own : List Byte) : RipRelative → Prop
  | legacy _ => True
  | escaped i => written ++ (escaped i).rest = i.first :: (i.more ++ i.opcode :: (own ++ i.imm))

instance (written own : List Byte) (i : RipRelative) : Decidable (i.Lands written own) := by
  cases i <;> unfold Lands <;> infer_instance

variable (i : RipRelative)

theorem lands_iff {written own : List Byte} (same : ∀ j, i = .legacy j → written = own) :
    i.head ++ written ++ i.rest = i.front ++ own ++ i.imm ↔ i.Lands written own := by
  cases i with
  | legacy j => exact iff_of_true (by rw [same j rfl]; rfl) trivial
  | escaped j => simp [head,front,imm,Lands]

theorem head_plain (rest : List Byte) : ((i.head ++ rest).headD 0).toNat / 8 ≠ 0x50 / 8 := by
  cases i with
  | legacy i =>
    obtain ⟨b,more,opcode,_,_,plain⟩ := opcode_plain i.shape
    have legacyPlain : ∀ b : Byte, legacyByte b = true → b.toNat / 8 ≠ 0x50 / 8 := by decide
    have rexPlain : ∀ r : BitVec 4, (0x40 ||| r.setWidth 8 : Byte).toNat / 8 ≠ 0x50 / 8 := by decide
    cases legacy : i.legacy with
    | cons c cs => simpa [head,RipInsn.prefixes,legacy] using legacyPlain c (i.known c (by simp [legacy]))
    | nil =>
      cases rex : i.rex with
      | none => simpa [head,RipInsn.prefixes,RipInsn.rexBytes,legacy,rex,opcode] using plain
      | some r => simpa [head,RipInsn.prefixes,RipInsn.rexBytes,legacy,rex] using rexPlain r
  | escaped i =>
    have segmentPlain : ∀ b : Byte, segmentByte b = true → b.toNat / 8 ≠ 0x50 / 8 := by decide
    have leadPlain : i.lead.byte.toNat / 8 ≠ 0x50 / 8 := by cases i.lead <;> decide
    cases segment : i.segment with
    | cons c cs => simpa [head,segment] using segmentPlain c (i.known c (by simp [segment]))
    | nil => simpa [head,segment] using leadPlain

theorem mask_modRM (rm : BitVec 3) : (i.modRM 5 &&& 0xf8) + rm.setWidth 8 = i.modRM rm := by
  have fields : ∀ reg rm : BitVec 3, ((reg.setWidth 8 <<< 3 ||| 5 : Byte) &&& 0xf8) + rm.setWidth 8 =
      reg.setWidth 8 <<< 3 ||| rm.setWidth 8 := by decide
  exact fields i.reg rm

def pointerReg : Reg := if i.taken &&& 0x38 ≠ 0 then .rax else .rbx

def pointerLow : BitVec 3 := if i.taken &&& 0x38 ≠ 0 then 0 else 3

end Machine.RipRelative

open RipRelative

/-- The three forms of a relocated instruction. -/
inductive RelocatedAs (lib : ArchX86) (i : RipRelative) (a p : Word) : List Byte → Prop
  | disp (near : lib.isDisp32 (i.targetAddr a - p + BitVec.ofNat 64 i.raw.length) = true) :
      RelocatedAs lib i a p (i.head ++ i.taken ::
        toBytes 4 ((i.targetAddr a - p - BitVec.ofNat 64 i.raw.length).setWidth 32) ++ i.rest)
  | abs (notNear : lib.isDisp32 (i.targetAddr a - p + BitVec.ofNat 64 i.raw.length) = false)
      (low : lib.isAddr32 (i.targetAddr a) = true) :
      RelocatedAs lib i a p (i.head ++ ((i.taken &&& 0xf8) + 4) :: 0x25 ::
        toBytes 4 ((i.targetAddr a).setWidth 32) ++ i.rest)
  | far (notNear : lib.isDisp32 (i.targetAddr a - p + BitVec.ofNat 64 i.raw.length) = false)
      (high : lib.isAddr32 (i.targetAddr a) = false) :
      RelocatedAs lib i a p (pushBytes 0x50 i.pointerReg ++
        ([0x48,if i.pointerReg = .rax then 0xb8 else 0xbb] ++ toBytes 8 (i.targetAddr a)) ++
        (i.head ++ [(i.taken &&& 0xf8) + i.pointerLow.setWidth 8] ++ i.rest) ++ pushBytes 0x58 i.pointerReg)

theorem opcodeSize_rip {lib : ArchX86} (i : RipRelative) (prefixes : lib.countPrefixes i.raw = i.prefixes.length) :
    opcodeSize lib i.raw = i.head.length := by
  rw [opcodeSize,prefixes]
  cases i with
  | legacy i =>
    rw [head,List.length_append]
    rcases opcodeShape_cases i.shape with ⟨b,ops,modRM⟩ | ⟨b,ops,notA,notB⟩ | ⟨b,c,ops,escape⟩
    · have first : (raw (.legacy i)).getD i.prefixes.length 0 = b := by simp [raw,front,ops]
      rw [RipRelative.prefixes,first,if_neg (oneByteModRM_plain b modRM).2.2.1,ops]
      rfl
    · have first : (raw (.legacy i)).getD i.prefixes.length 0 = 0x0f := by simp [raw,front,ops]
      have second : (raw (.legacy i)).getD (i.prefixes.length + 1) 0 = b := by simp [raw,front,ops]
      rw [RipRelative.prefixes,first,second,if_pos rfl,if_neg (not_or.mpr ⟨notA,notB⟩),ops]
      rfl
    · have first : (raw (.legacy i)).getD i.prefixes.length 0 = 0x0f := by simp [raw,front,ops]
      have second : (raw (.legacy i)).getD (i.prefixes.length + 1) 0 = b := by simp [raw,front,ops]
      rw [RipRelative.prefixes,first,second,if_pos rfl,if_pos escape,ops]
      rfl
  | escaped i =>
    have first : (raw (.escaped i)).getD i.segment.length 0 = i.lead.byte := by simp [raw,front]
    have other : i.lead.byte ≠ 0x0f := by cases i.lead <;> decide
    rw [RipRelative.prefixes,first,if_neg other,head,List.length_append]
    rfl

/-- How the source cuts the instruction. -/
theorem raw_cut (i : RipRelative) : i.raw.take i.head.length = i.head ∧ i.raw.getD i.head.length 0 = i.taken ∧
    i.raw.drop (i.head.length + 5) = i.rest := by
  cases i with
  | legacy i =>
    have size : (head (.legacy i) ++ modRM (.legacy i) 5 :: toBytes 4 i.disp).length = (head (.legacy i)).length + 5 := by
      simp
    refine ⟨List.take_left,by simp [raw,front,head,taken],?_⟩
    rw [← size,show raw (.legacy i) = (head (.legacy i) ++ modRM (.legacy i) 5 :: toBytes 4 i.disp) ++ i.imm by
      simp [raw,front,head,disp,imm],List.drop_left]
    rfl
  | escaped i =>
    have split : raw (.escaped i) = head (.escaped i) ++
        i.first :: (i.more ++ i.opcode :: modRM (.escaped i) 5 :: (toBytes 4 i.disp ++ i.imm)) := by
      simp [raw,front,head,disp,imm]
    rw [split]
    refine ⟨List.take_left,by simp [taken],?_⟩
    rw [← List.drop_drop,List.drop_left]
    rfl

theorem relocInsnInternal_rip {lib : ArchX86} {i : RipRelative} {insn : Instruction}
    (reported : Reported i insn) (prefixes : lib.countPrefixes i.raw = i.prefixes.length) (a p : Word) :
    ∃ bytes, relocInsnInternal lib a insn true p = some bytes ∧ RelocatedAs lib i a p bytes := by
  obtain ⟨opcode,modRM,rest⟩ := raw_cut i
  simp only [relocInsnInternal,if_true,reported.targetAddr,reported.raw,opcodeSize_rip i prefixes,opcode,modRM,rest,
    Option.bind_eq_bind,Option.bind_some,Option.getD_some]
  cases near : lib.isDisp32 (i.targetAddr a - p + BitVec.ofNat 64 i.raw.length) with
  | true => exact ⟨_,by simp,.disp near⟩
  | false =>
    cases low : lib.isAddr32 (i.targetAddr a) with
    | true => exact ⟨_,by simp,.abs near low⟩
    | false =>
      refine ⟨_,?_,.far near low⟩
      by_cases field : i.taken &&& 0x38 ≠ 0
      · have reg : i.pointerReg = .rax := if_pos field
        have number : i.pointerLow = 0 := if_pos field
        rw [reg,number]
        simp only [if_pos field,Bool.not_false,Bool.and_self,if_true]
        simp [emitPushReg64,emitMovImmToReg64,emitPopReg64,emitRex,pushBytes]
      · have reg : i.pointerReg = .rbx := if_neg field
        have number : i.pointerLow = 3 := if_neg field
        rw [reg,number]
        simp only [if_neg field,Bool.not_false,Bool.and_self,if_true]
        simp [emitPushReg64,emitMovImmToReg64,emitPopReg64,emitRex,pushBytes]

/-- The instruction in emitted code and what is run before it. Behind a push and a register
load there is one, and a pop of one byte after it. -/
def unwrap (bytes : List Byte) : Option (List Op × List Byte) :=
  if (bytes.headD 0).toNat / 8 = 0x50 / 8 then
    match decode bytes with
    | some (.op save,n) =>
      match decode (bytes.drop n) with
      | some (.op point,k) => some ([save,point],(bytes.drop (n + k)).dropLast)
      | _ => none
    | _ => none
  else some ([],bytes)

/-- Where the memory operand of emitted code at `p` points. -/
def emittedOperand (bytes : List Byte) (p : Word) (s : State) : Option Word := do
  let (before,insn) ← unwrap bytes
  let t ← applyOps before s
  let operand ← memoryOperand insn
  operand.address (p + BitVec.ofNat 64 (bytes.length - if before.isEmpty then 0 else 1)) t.reg

/-- The bytes are the instruction but for its memory operand: what stands before and behind it
and the `reg` field are the same. -/
def Respelled (i : RipRelative) (insn : List Byte) (rm : RM) : Prop :=
  ∃ o, insn = i.front ++ o ++ i.imm ∧ decodeModRM i.bits o = some (i.reg.toNat,rm,o.length)

/-- The emitted code has the instruction in it, and its operand denotes the address of the
original one, in every state. -/
def OperandKept (lib : ArchX86) (i : RipRelative) (insn : Instruction) (a p : Word) : Prop :=
  ∃ bytes before inner rm, relocInsnInternal lib a insn true p = some bytes ∧ unwrap bytes = some (before,inner) ∧
    Respelled i inner rm ∧ ∀ s, emittedOperand bytes p s = some (i.targetAddr a)

theorem OperandKept.operand {lib : ArchX86} {i : RipRelative} {insn : Instruction} {a p : Word} {bytes : List Byte}
    (kept : OperandKept lib i insn a p) (made : relocInsnInternal lib a insn true p = some bytes) (s : State) :
    emittedOperand bytes p s = some (i.targetAddr a) := by
  obtain ⟨other,_,_,_,made',_,_,same⟩ := kept
  obtain rfl := Option.some.inj (made.symm.trans made')
  exact same s

/-- A SIB byte that names neither base nor index. -/
def plainSib (scale : BitVec 2) : Byte := scale.setWidth 8 <<< 6 ||| 0x25

/-- Where the encoding that is chosen can express the address: the displacement
is tested with the instruction's size added but written with it subtracted, the
absolute form is sign-extended and takes REX.X for an index register, and REX.B
changes the pointer register. -/
def Expressible (lib : ArchX86) (i : RipRelative) (a p : Word) : Prop :=
  let newDisp := i.targetAddr a - p
  let insnSz := BitVec.ofNat 64 i.raw.length
  if lib.isDisp32 (newDisp + insnSz) then
    let disp := toBytes 4 ((newDisp - insnSz).setWidth 32)
    Fits32 (newDisp - insnSz) ∧ i.Lands (i.taken :: disp) (i.modRM 5 :: disp)
  else if lib.isAddr32 (i.targetAddr a) then
    let address := toBytes 4 ((i.targetAddr a).setWidth 32)
    Fits32 (i.targetAddr a) ∧ i.bits.x = false ∧ ∃ scale,
      i.Lands (((i.taken &&& 0xf8) + 4) :: 0x25 :: address) (i.modRM 4 :: plainSib scale :: address)
  else i.bits.b = false ∧ i.Lands [(i.taken &&& 0xf8) + i.pointerLow.setWidth 8] [i.modRM i.pointerLow]

instance (lib : ArchX86) (i : RipRelative) (a p : Word) : Decidable (Expressible lib i a p) := by
  unfold Expressible
  infer_instance

def noState : State := ⟨fun _ => 0,fun _ => 0,⟨false,false,false,false,false,false⟩,fun _ => 0,0⟩

section
variable (i : RipRelative)

theorem read_rip (d : BitVec 32) :
    decodeModRM i.bits (i.modRM 5 :: toBytes 4 d) = some (i.reg.toNat,.rip (d.signExtend 64),5) := by
  obtain ⟨mod,reg,rm⟩ := modRM_fields i.reg 5
  have disp : disp32 (toBytes 4 d) = some (d.signExtend 64) := by
    have read := immediate_toBytes 4 d [] (by decide)
    rw [List.append_nil] at read
    rw [disp32,read,Option.map_some]
  rw [← reg]
  exact decodeModRM_rip _ mod rm disp

theorem read_abs (scale : BitVec 2) (d : BitVec 32) (plain : i.bits.x = false) :
    decodeModRM i.bits (i.modRM 4 :: plainSib scale :: toBytes 4 d) =
      some (i.reg.toNat,.mem ⟨none,none,d.signExtend 64⟩,6) := by
  obtain ⟨mod,reg,rm⟩ := modRM_fields i.reg 4
  have fields : ∀ scale : BitVec 2, (plainSib scale).toNat % 8 = 5 ∧ (plainSib scale).toNat / 8 % 8 = 4 := by decide
  have disp : disp32 (toBytes 4 d) = some (d.signExtend 64) := by
    have read := immediate_toBytes 4 d [] (by decide)
    rw [List.append_nil] at read
    rw [disp32,read,Option.map_some]
  rw [← reg]
  refine decodeModRM_sib _ mod rm (n := 5) ?_
  simp [decodeSib,fields scale,disp,extend,plain]

theorem read_reg (low : BitVec 3) (plain : low ≠ 4 ∧ low ≠ 5) :
    decodeModRM i.bits [i.modRM low] =
      some (i.reg.toNat,.mem ⟨some (Reg.numbered (extend i.bits.b low.toNat)),none,0⟩,1) := by
  obtain ⟨mod,reg,rm⟩ := modRM_fields i.reg low
  have notSib : low.toNat ≠ 4 := fun same => plain.1 (BitVec.eq_of_toNat_eq same)
  have notRip : low.toNat ≠ 5 := fun same => plain.2 (BitVec.eq_of_toNat_eq same)
  have read := @decodeModRM_base i.bits (i.modRM low) [] mod (by rwa [modRM,rm]) (by rwa [modRM,rm])
  rw [modRM,rm,reg] at read
  exact read

variable {i} {o : List Byte} {rm : RM} {next target : Word}

theorem disp32_whole {bs : List Byte} {d : Word} (read : disp32 bs = some d) (length : bs.length = 4) :
    ∃ v : BitVec 32, d = v.signExtend 64 ∧ bs = toBytes 4 v := by
  obtain ⟨v,rest,same,rfl⟩ := disp32_sound read
  rw [List.length_append,length_toBytes] at length
  have none : rest = [] := List.eq_nil_of_length_eq_zero (by omega)
  exact ⟨v,same,by rw [none,List.append_nil]⟩

/-- An operand of five bytes that is the same in every state is relative to the next instruction. -/
theorem operand_five (read : decodeModRM i.bits o = some (i.reg.toNat,rm,o.length)) (five : o.length = 5)
    (same : ∀ reg, rm.address next reg = some target) :
    ∃ v : BitVec 32, o = i.modRM 5 :: toBytes 4 v ∧ next + v.signExtend 64 = target := by
  cases o with
  | nil => cases five
  | cons m bs =>
    rw [List.length_cons] at five
    obtain ⟨reg,⟨r,_,n⟩ | ⟨d,mod,low,disp,rfl,_⟩ | ⟨_,_,_,_,n⟩ | ⟨_,_,_,_,_,_,_,_,_,n⟩ | ⟨base,index,d,rfl,_,small⟩⟩ :=
      decodeModRM_sound read
    · rw [List.length_cons] at n
      omega
    · obtain ⟨v,rfl,rfl⟩ := disp32_whole disp (by omega)
      refine ⟨v,?_,Option.some.inj (same fun _ => 0)⟩
      rw [i.eq_modRM (by decide) mod reg low]
      rfl
    · rw [List.length_cons] at n
      omega
    · rw [List.length_cons] at n
      omega
    · obtain ⟨none,_⟩ := MemRef.constant small fun reg => Option.some.inj (same reg)
      cases none

/-- One of six bytes is absolute. -/
theorem operand_six (read : decodeModRM i.bits o = some (i.reg.toNat,rm,o.length)) (six : o.length = 6)
    (same : ∀ reg, rm.address next reg = some target) :
    ∃ scale, ∃ v : BitVec 32, i.bits.x = false ∧ o = i.modRM 4 :: plainSib scale :: toBytes 4 v ∧
      v.signExtend 64 = target := by
  cases o with
  | nil => cases six
  | cons m bs =>
    rw [List.length_cons] at six
    obtain ⟨reg,⟨r,_,n⟩ | ⟨_,_,_,_,_,n⟩ | ⟨_,_,_,_,n⟩ | ⟨sib,more,d,mod,low,rfl,base,disp,rfl,_⟩ | ⟨base,index,d,rfl,_,small⟩⟩ :=
      decodeModRM_sound read
    · rw [List.length_cons] at n
      omega
    · rw [List.length_cons] at n
      omega
    · rw [List.length_cons] at n
      omega
    · rw [List.length_cons] at six
      obtain ⟨v,rfl,rfl⟩ := disp32_whole disp (by omega)
      have scaled : ∀ r scale, (if extend i.bits.x (sib.toNat / 8 % 8) = 4 then none
          else some (Reg.numbered (extend i.bits.x (sib.toNat / 8 % 8)),sib.toNat / 64)) = some (r,scale) → scale < 4 := by
        intro r scale some
        split at some <;> cases some
        omega
      obtain ⟨_,index,value⟩ := MemRef.constant scaled fun reg => Option.some.inj (same reg)
      have none : extend i.bits.x (sib.toNat / 8 % 8) = 4 := by
        by_contra other
        rw [if_neg other] at index
        cases index
      have plain : i.bits.x = false ∧ sib.toNat / 8 % 8 = 4 := by
        cases x : i.bits.x <;> simp only [extend,x,Bool.false_eq_true,if_false,if_true] at none
        · exact ⟨rfl,none⟩
        · omega
      have sibs : ∀ sib : Byte, sib.toNat % 8 = 5 → sib.toNat / 8 % 8 = 4 →
          sib = plainSib (BitVec.ofNat 2 (sib.toNat / 64)) := by decide
      refine ⟨BitVec.ofNat 2 (sib.toNat / 64),v,plain.1,?_,value⟩
      rw [i.eq_modRM (by decide) mod reg low,← sibs sib base plain.2]
      rfl
    · obtain ⟨none,_⟩ := MemRef.constant small fun reg => Option.some.inj (same reg)
      cases none

/-- One of one byte is in a register. -/
theorem operand_one (read : decodeModRM i.bits o = some (i.reg.toNat,rm,o.length)) (one : o.length = 1) :
    (∃ r, rm = .reg r) ∨ ∃ low : BitVec 3, low ≠ 4 ∧ low ≠ 5 ∧ o = [i.modRM low] ∧
      rm = .mem ⟨some (Reg.numbered (extend i.bits.b low.toNat)),none,0⟩ := by
  match o,one with
  | [m],_ =>
    obtain ⟨reg,⟨r,made,_⟩ | ⟨_,_,_,_,_,n⟩ | ⟨mod,notSib,notRip,rfl,_⟩ | ⟨_,_,_,_,_,_,_,_,_,n⟩ | ⟨_,_,_,_,n,_⟩⟩ :=
      decodeModRM_sound read
    · exact .inl ⟨r,made⟩
    · cases n
    · have small : m.toNat % 8 < 8 := Nat.mod_lt _ (by decide)
      have number : (BitVec.ofNat 3 (m.toNat % 8)).toNat = m.toNat % 8 := by
        rw [BitVec.toNat_ofNat,Nat.mod_eq_of_lt small]
      refine .inr ⟨BitVec.ofNat 3 (m.toNat % 8),fun four => notSib ?_,fun five => notRip ?_,?_,by rw [number]⟩
      · rw [← number,four]
        rfl
      · rw [← number,five]
        rfl
      · rw [← i.eq_modRM small mod reg rfl]
    · cases n
    · exact absurd rfl n

end

theorem length_cut (i : RipRelative) : i.head.length + i.rest.length = i.front.length + i.imm.length := by
  cases i with
  | legacy i => rfl
  | escaped i =>
    simp [head,rest,front,imm]
    omega

theorem unwrap_plain (i : RipRelative) (bs : List Byte) : unwrap (i.head ++ bs) = some ([],i.head ++ bs) :=
  if_neg (i.head_plain bs)

theorem pointer_cases (i : RipRelative) :
    (i.pointerReg = .rax ∧ i.pointerLow = 0) ∨ (i.pointerReg = .rbx ∧ i.pointerLow = 3) := by
  by_cases field : i.taken &&& 0x38 ≠ 0
  · exact .inl ⟨if_pos field,if_pos field⟩
  · exact .inr ⟨if_neg field,if_neg field⟩

theorem unwrap_far (i : RipRelative) (target : Word) (insn : List Byte) :
    unwrap (pushBytes 0x50 i.pointerReg ++ ([0x48,if i.pointerReg = .rax then 0xb8 else 0xbb] ++ toBytes 8 target) ++
      insn ++ pushBytes 0x58 i.pointerReg) = some ([.push i.pointerReg,.movImm i.pointerReg target],insn) := by
  have load : Encodes (.op (.movImm i.pointerReg target))
      ([0x48,if i.pointerReg = .rax then 0xb8 else 0xbb] ++ toBytes 8 target) := by
    rcases pointer_cases i with ⟨reg,_⟩ | ⟨reg,_⟩ <;> rw [reg]
    · exact encodes_movImm target fun _ => rfl
    · exact encodes_movImm target fun _ => rfl
  have single : (∃ b, pushBytes 0x50 i.pointerReg = [b] ∧ b.toNat / 8 = 0x50 / 8) ∧ ∃ b, pushBytes 0x58 i.pointerReg = [b] := by
    rcases pointer_cases i with ⟨reg,_⟩ | ⟨reg,_⟩ <;> rw [reg]
    · exact ⟨⟨_,rfl,by decide⟩,_,rfl⟩
    · exact ⟨⟨_,rfl,by decide⟩,_,rfl⟩
  obtain ⟨⟨b,save,push⟩,b',restore⟩ := single
  have head : ∀ bs, ((pushBytes 0x50 i.pointerReg ++ bs).headD 0).toNat / 8 = 0x50 / 8 := by
    intro bs
    rw [save]
    exact push
  rw [List.append_assoc,List.append_assoc,unwrap,if_pos (head _),(encodes_push i.pointerReg).decoded]
  simp only [List.drop_left,load.decoded]
  rw [← List.append_assoc,← List.length_append,List.drop_left,restore,List.dropLast_concat]

section
variable {lib : ArchX86} {i : RipRelative} {insn : Instruction} {a p : Word} {bytes : List Byte}

/-- Code without a pointer register keeps the operand if it is the instruction respelled. -/
theorem kept_plain (made : relocInsnInternal lib a insn true p = some bytes) (plain : unwrap bytes = some ([],bytes)) :
    OperandKept lib i insn a p ↔ ∃ o rm, bytes = i.front ++ o ++ i.imm ∧
      decodeModRM i.bits o = some (i.reg.toNat,rm,o.length) ∧
        ∀ reg, rm.address (p + BitVec.ofNat 64 bytes.length) reg = some (i.targetAddr a) := by
  have operand : ∀ o rm, bytes = i.front ++ o ++ i.imm → decodeModRM i.bits o = some (i.reg.toNat,rm,o.length) →
      ∀ s, emittedOperand bytes p s = rm.address (p + BitVec.ofNat 64 bytes.length) s.reg := by
    intro o rm same read s
    have inside : memoryOperand bytes = some rm := same ▸ i.memoryOperand_front read i.imm
    simp [emittedOperand,plain,inside]
  constructor
  · rintro ⟨other,before,inner,rm,made',unwrapped,⟨o,spelled,read⟩,kept⟩
    obtain rfl := Option.some.inj (made.symm.trans made')
    obtain ⟨rfl,rfl⟩ := Prod.mk.inj (Option.some.inj (plain.symm.trans unwrapped))
    exact ⟨o,rm,spelled,read,fun reg => (operand o rm spelled read {noState with reg := reg}).symm.trans (kept _)⟩
  · rintro ⟨o,rm,spelled,read,same⟩
    exact ⟨bytes,[],bytes,rm,made,plain,⟨o,spelled,read⟩,fun s => (operand o rm spelled read s).trans (same s.reg)⟩

/-- The state in which the far form runs the instruction. -/
def pointed (r : Reg) (target : Word) (s : State) : State :=
  State.set {s.set .rsp (s.reg .rsp - 8) with
    mem := store s.mem (s.reg .rsp - 8) (s.reg r)} r target

theorem emittedOperand_far {inner : List Byte} {p : Word} {o : List Byte} {rm : RM} {target : Word}
    (unwrapped : unwrap bytes = some ([.push i.pointerReg,.movImm i.pointerReg target],inner))
    (spelled : inner = i.front ++ o ++ i.imm) (read : decodeModRM i.bits o = some (i.reg.toNat,rm,o.length)) (s : State) :
    emittedOperand bytes p s =
      rm.address (p + BitVec.ofNat 64 (bytes.length - 1)) (pointed i.pointerReg target s).reg := by
  have inside : memoryOperand inner = some rm := spelled ▸ i.memoryOperand_front read i.imm
  simp [emittedOperand,unwrapped,inside,applyOps_cons,Op.apply,applyOps_nil,pointed]

theorem setWidth_signExtend (v : BitVec 32) : (v.signExtend 64).setWidth 32 = v := by
  ext k inside
  rw [BitVec.getElem_setWidth,BitVec.getLsbD_signExtend,if_pos inside,BitVec.getLsbD_eq_getElem inside]
  simp
  omega

theorem lands_disp_iff (i : RipRelative) (v : BitVec 32) :
    i.head ++ i.taken :: toBytes 4 v ++ i.rest = i.front ++ i.modRM 5 :: toBytes 4 v ++ i.imm ↔
      i.Lands (i.taken :: toBytes 4 v) (i.modRM 5 :: toBytes 4 v) := by
  refine i.lands_iff fun j same => ?_
  rw [same]
  rfl

theorem kept_disp (made : relocInsnInternal lib a insn true p = some bytes)
    (form : bytes = i.head ++ i.taken ::
      toBytes 4 ((i.targetAddr a - p - BitVec.ofNat 64 i.raw.length).setWidth 32) ++ i.rest) :
    OperandKept lib i insn a p ↔ Fits32 (i.targetAddr a - p - BitVec.ofNat 64 i.raw.length) ∧
      let disp := toBytes 4 ((i.targetAddr a - p - BitVec.ofNat 64 i.raw.length).setWidth 32)
      i.Lands (i.taken :: disp) (i.modRM 5 :: disp) := by
  have plain : unwrap bytes = some ([],bytes) := by
    rw [form,List.append_assoc]
    exact unwrap_plain i _
  have size : bytes.length = i.raw.length := by
    have sizes := length_cut i
    rw [form,i.length_raw]
    simp only [List.length_append,List.length_cons,length_toBytes]
    omega
  have lands := lands_disp_iff i ((i.targetAddr a - p - BitVec.ofNat 64 i.raw.length).setWidth 32)
  rw [← form] at lands
  rw [kept_plain made plain,size,← signExtend_setWidth_iff]
  constructor
  · rintro ⟨o,rm,spelled,read,same⟩
    have five : o.length = 5 := by
      have whole := i.length_raw
      rw [← size,spelled] at whole
      simp only [List.length_append] at whole
      omega
    obtain ⟨v,rfl,value⟩ := operand_five read five same
    have disp : i.targetAddr a - p - BitVec.ofNat 64 i.raw.length = v.signExtend 64 := by
      rw [← value]
      ring
    rw [disp,setWidth_signExtend] at lands ⊢
    exact ⟨rfl,lands.mp spelled⟩
  · rintro ⟨fits,landed⟩
    refine ⟨_,_,lands.mpr landed,read_rip i _,fun reg => ?_⟩
    rw [RM.address,fits]
    congr 1
    ring

theorem lands_abs_iff (i : RipRelative) (v : BitVec 32) :
    (∃ scale, i.head ++ ((i.taken &&& 0xf8) + 4) :: 0x25 :: toBytes 4 v ++ i.rest =
        i.front ++ i.modRM 4 :: plainSib scale :: toBytes 4 v ++ i.imm) ↔
      ∃ scale, i.Lands (((i.taken &&& 0xf8) + 4) :: 0x25 :: toBytes 4 v) (i.modRM 4 :: plainSib scale :: toBytes 4 v) := by
  cases i with
  | legacy i =>
    have low : ((legacy i).taken &&& 0xf8) + 4 = (legacy i).modRM 4 := mask_modRM _ 4
    refine iff_of_true ⟨0,?_⟩ ⟨0,trivial⟩
    rw [low]
    rfl
  | escaped i => exact exists_congr fun scale => lands_iff _ fun j same => nomatch same

theorem kept_abs (made : relocInsnInternal lib a insn true p = some bytes)
    (form : bytes = i.head ++ ((i.taken &&& 0xf8) + 4) :: 0x25 :: toBytes 4 ((i.targetAddr a).setWidth 32) ++ i.rest) :
    OperandKept lib i insn a p ↔ Fits32 (i.targetAddr a) ∧ i.bits.x = false ∧ ∃ scale,
      i.Lands (((i.taken &&& 0xf8) + 4) :: 0x25 :: toBytes 4 ((i.targetAddr a).setWidth 32))
        (i.modRM 4 :: plainSib scale :: toBytes 4 ((i.targetAddr a).setWidth 32)) := by
  have plain : unwrap bytes = some ([],bytes) := by
    rw [form,List.append_assoc]
    exact unwrap_plain i _
  have size : bytes.length = i.raw.length + 1 := by
    have sizes := length_cut i
    rw [form,i.length_raw]
    simp only [List.length_append,List.length_cons,length_toBytes]
    omega
  rw [kept_plain made plain,← signExtend_setWidth_iff]
  constructor
  · rintro ⟨o,rm,spelled,read,same⟩
    have six : o.length = 6 := by
      have whole := i.length_raw
      rw [spelled] at size
      simp only [List.length_append] at size
      omega
    obtain ⟨scale,v,index,rfl,value⟩ := operand_six read six same
    rw [← value,setWidth_signExtend] at form ⊢
    exact ⟨rfl,index,(lands_abs_iff i v).mp ⟨scale,form.symm.trans spelled⟩⟩
  · rintro ⟨fits,index,landed⟩
    obtain ⟨scale,same⟩ := (lands_abs_iff i _).mpr landed
    refine ⟨_,_,form.trans same,read_abs i scale _ index,fun reg => ?_⟩
    rw [fits]
    simp [RM.address,MemRef.addr]

theorem pointed_reg (r q : Reg) (target : Word) (s : State) :
    (pointed r target s).reg q = if q = r then target else if q = .rsp then s.reg .rsp - 8 else s.reg q := by
  simp [pointed]

/-- A register that a ModRM byte alone can name, with REX.B or without. -/
theorem numbered_pointer (i : RipRelative) {b : Bool} {low : BitVec 3} (notSib : low ≠ 4) (notRip : low ≠ 5) :
    Reg.numbered (extend b low.toNat) ≠ .rsp ∧
      (Reg.numbered (extend b low.toNat) = i.pointerReg ↔ b = false ∧ low = i.pointerLow) := by
  have named : ∀ b, ∀ low : BitVec 3, low ≠ 4 → low ≠ 5 → Reg.numbered (extend b low.toNat) ≠ .rsp ∧
      (Reg.numbered (extend b low.toNat) = .rax ↔ b = false ∧ low = 0) ∧
      (Reg.numbered (extend b low.toNat) = .rbx ↔ b = false ∧ low = 3) := by decide
  obtain ⟨notSp,rax,rbx⟩ := named b low notSib notRip
  rcases pointer_cases i with ⟨reg,number⟩ | ⟨reg,number⟩ <;> rw [reg,number]
  · exact ⟨notSp,rax⟩
  · exact ⟨notSp,rbx⟩

theorem pointerLow_plain (i : RipRelative) : i.pointerLow ≠ 4 ∧ i.pointerLow ≠ 5 := by
  rcases pointer_cases i with ⟨_,number⟩ | ⟨_,number⟩ <;> rw [number] <;> decide

theorem lands_far_iff (i : RipRelative) :
    i.head ++ [(i.taken &&& 0xf8) + i.pointerLow.setWidth 8] ++ i.rest = i.front ++ [i.modRM i.pointerLow] ++ i.imm ↔
      i.Lands [(i.taken &&& 0xf8) + i.pointerLow.setWidth 8] [i.modRM i.pointerLow] := by
  refine i.lands_iff fun j same => ?_
  rw [← mask_modRM,same]
  rfl

theorem one_of_spelled (i : RipRelative) {b : Byte} {o : List Byte} (spelled : i.head ++ [b] ++ i.rest = i.front ++ o ++ i.imm) :
    o.length = 1 := by
  have sizes := length_cut i
  have same := congrArg List.length spelled
  simp only [List.length_append,List.length_cons,List.length_nil] at same
  omega

theorem kept_far (made : relocInsnInternal lib a insn true p = some bytes)
    (form : bytes = pushBytes 0x50 i.pointerReg ++
        ([0x48,if i.pointerReg = .rax then 0xb8 else 0xbb] ++ toBytes 8 (i.targetAddr a)) ++
        (i.head ++ [(i.taken &&& 0xf8) + i.pointerLow.setWidth 8] ++ i.rest) ++ pushBytes 0x58 i.pointerReg) :
    OperandKept lib i insn a p ↔
      i.bits.b = false ∧ i.Lands [(i.taken &&& 0xf8) + i.pointerLow.setWidth 8] [i.modRM i.pointerLow] := by
  have unwrapped := unwrap_far i (i.targetAddr a) (i.head ++ [(i.taken &&& 0xf8) + i.pointerLow.setWidth 8] ++ i.rest)
  rw [← form] at unwrapped
  constructor
  · rintro ⟨other,before,inner,rm,made',unwrapped',⟨o,spelled,read⟩,kept⟩
    obtain rfl := Option.some.inj (made.symm.trans made')
    obtain ⟨rfl,rfl⟩ := Prod.mk.inj (Option.some.inj (unwrapped.symm.trans unwrapped'))
    have operand := fun s => (emittedOperand_far unwrapped spelled read s).symm.trans (kept s)
    rcases operand_one read (one_of_spelled i spelled) with ⟨r,rfl⟩ | ⟨low,notSib,notRip,rfl,rfl⟩
    · cases operand noState
    · have only : Reg.numbered (extend i.bits.b low.toNat) = i.pointerReg := by
        by_contra other
        have value := operand (noState.set (Reg.numbered (extend i.bits.b low.toNat)) (i.targetAddr a + 1))
        simp only [RM.address,MemRef.addr,pointed_reg,if_neg other,if_neg (numbered_pointer i notSib notRip).1,
          State.set_reg,if_true,Option.some_inj] at value
        bv_omega
      obtain ⟨direct,rfl⟩ := (numbered_pointer i notSib notRip).2.mp only
      exact ⟨direct,(lands_far_iff i).mp spelled⟩
  · rintro ⟨direct,landed⟩
    have spelled := (lands_far_iff i).mpr landed
    have plain := pointerLow_plain i
    have read := read_reg i i.pointerLow plain
    refine ⟨bytes,_,_,_,made,unwrapped,⟨_,spelled,read⟩,fun s => ?_⟩
    rw [emittedOperand_far unwrapped spelled read]
    have only := (numbered_pointer i plain.1 plain.2).2.mpr ⟨direct,rfl⟩
    simp [RM.address,MemRef.addr,only,pointed_reg]

/-- Relocation keeps the effective address exactly where the chosen encoding can
express it. -/
theorem operand_kept_iff (lib : ArchX86) (i : RipRelative) (insn : Instruction) (a p : Word)
    (reported : Reported i insn) (prefixes : lib.countPrefixes i.raw = i.prefixes.length) :
    OperandKept lib i insn a p ↔ Expressible lib i a p := by
  obtain ⟨bytes,made,form⟩ := relocInsnInternal_rip reported prefixes a p
  unfold Expressible
  cases form with
  | disp near =>
    simp only [near,if_true]
    exact kept_disp made rfl
  | abs notNear low =>
    simp only [notNear,low,Bool.false_eq_true,if_false,if_true]
    exact kept_abs made rfl
  | far notNear high =>
    simp only [notNear,high,Bool.false_eq_true,if_false]
    exact kept_far made rfl

end

/-- The library's predicates: a signed and an unsigned 32-bit range, and the prefix bytes. -/
def decoderLib : ArchX86 where
  isDisp32 d := decide (Fits32 d)
  isAddr32 a := decide (a.toNat < 2 ^ 32)
  countPrefixes raw := (raw.takeWhile fun b => legacyByte b || isRex b).length

/-- An instruction with one memory operand, relative to %rip, that it reads. -/
def loadInsn (raw : List Byte) (disp : Word) : Instruction where
  raw := raw
  readsMemory := true
  writesMemory := false
  memoryReadOperands := [.add (.register .rip) (.immediate disp)]
  memoryWriteOperands := []
  readSet := [⟨1,.rip⟩]
  accessSet := [⟨1,.rip⟩,⟨2,.other 0⟩]
  operands := [.register (.other 0),.dereference (.add (.register .rip) (.immediate disp))]
  controlFlowTarget := none

theorem loadInsn_reported (i : RipRelative) : Reported i (loadInsn i.raw (i.disp.signExtend 64)) where
  raw := rfl
  operand := by
    refine .inl ⟨⟨_,List.mem_singleton.mpr rfl,rfl⟩,fun e listed _ pc => ?_⟩
    cases List.mem_singleton.mp listed
    rfl

/-- `mov 0x1000(%rip),%eax`. -/
def plainMov : RipRelative := .legacy ⟨[],none,[0x8b],0,0x1000,[],noLegacy,by decide,by decide,by decide⟩

def plainMovInsn : Instruction := loadInsn plainMov.raw 0x1000

theorem plainMov_reported : Reported plainMov plainMovInsn := loadInsn_reported plainMov

theorem operand_kept_plainMov : OperandKept decoderLib plainMov plainMovInsn 0x401000 0x403000 :=
  (operand_kept_iff decoderLib plainMov plainMovInsn 0x401000 0x403000 plainMov_reported
    (by decide)).mpr (by decide)

/-- `vmovaps 0x1000(%rip),%xmm0`. -/
def vmovaps : RipRelative := .escaped ⟨[],.vex2,0xf8,[],0x28,0,0x1000,[],by simp,rfl,by decide,by decide⟩

def vmovapsInsn : Instruction := loadInsn vmovaps.raw 0x1000

/-- An address between 2 GB and 4 GB passes the test of the absolute form, which
sign-extends it. With a VEX escape the new displacement is written over the opcode. -/
theorem operand_lost_plainMov : Reported plainMov plainMovInsn ∧
    decoderLib.countPrefixes plainMov.raw = plainMov.prefixes.length ∧
    ¬OperandKept decoderLib plainMov plainMovInsn 0x80000000 0x7f0000000000 ∧
    Reported vmovaps vmovapsInsn ∧ decoderLib.countPrefixes vmovaps.raw = vmovaps.prefixes.length ∧
    ¬OperandKept decoderLib vmovaps vmovapsInsn 0x401000 0x403000 := by
  refine ⟨plainMov_reported,by decide,fun kept => ?_,loadInsn_reported vmovaps,by decide,fun kept => ?_⟩
  · obtain ⟨bytes,_,_,_,made,_,_,same⟩ := kept
    have emitted : relocInsnInternal decoderLib 0x80000000 plainMovInsn true 0x7f0000000000 =
        some [0x8b,0x04,0x25,0x06,0x10,0x00,0x80] := by decide
    obtain rfl := Option.some.inj (made.symm.trans emitted)
    exact absurd (same noState) (by decide)
  · have emitted : relocInsnInternal decoderLib 0x401000 vmovapsInsn true 0x403000 =
        some [0xc5,0xf8,0x00,0xf0,0xff,0xff,0x00,0x00] := by decide
    exact absurd ((kept_disp emitted (by decide)).mp kept).2 (by decide)

end SelfPropelled
