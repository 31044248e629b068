import SelfPropelled.Machine.Operand

/-! Instructions with a RIP-relative memory operand, in a legacy encoding or behind a VEX,
EVEX or XOP escape. -/

namespace SelfPropelled.Machine

def segmentByte (b : Byte) : Bool := [0x26,0x2e,0x36,0x3e,0x64,0x65].contains b

/-- With an escape only segment overrides may stand before it. The payload has its first byte
and up to two more. -/
structure EscapedInsn where
  segment : List Byte
  lead : Lead
  first : Byte
  more : List Byte
  opcode : Byte
  reg : BitVec 3
  disp : BitVec 32
  imm : List Byte
  known : ∀ b ∈ segment, segmentByte b = true
  sized : more.length = lead.more
  map : lead = .xop → 8 ≤ first.toNat % 32
  short : segment.length + 2 + more.length + 6 + imm.length ≤ maxInstrLength

theorem escapeLead_byte (lead : Lead) (first : Byte) (map : lead = .xop → 8 ≤ first.toNat % 32) :
    escapeLead lead.byte first = some lead := by
  cases lead with
  | vex2 | vex3 | evex => rfl
  | xop => simp [escapeLead,Lead.byte,map rfl]

inductive RipRelative
  | legacy (i : RipInsn)
  | escaped (i : EscapedInsn)

namespace RipRelative
variable (i : RipRelative)

/-- All bytes before the operand. -/
def front : RipRelative → List Byte
  | legacy i => i.prefixes ++ i.opcode
  | escaped i => i.segment ++ i.lead.byte :: i.first :: (i.more ++ [i.opcode])

/-- The prefixes that stand apart from the encoding. -/
def prefixes : RipRelative → List Byte
  | legacy i => i.prefixes
  | escaped i => i.segment

def bits : RipRelative → Prefix
  | legacy i => i.rexBits
  | escaped i => i.lead.bits i.first

def reg : RipRelative → BitVec 3
  | legacy i => i.reg
  | escaped i => i.reg

def disp : RipRelative → BitVec 32
  | legacy i => i.disp
  | escaped i => i.disp

def imm : RipRelative → List Byte
  | legacy i => i.imm
  | escaped i => i.imm

/-- A ModRM byte of the instruction without a displacement size. -/
def modRM (rm : BitVec 3) : Byte := i.reg.setWidth 8 <<< 3 ||| rm.setWidth 8

def raw : List Byte := i.front ++ i.modRM 5 :: (toBytes 4 i.disp ++ i.imm)

def targetAddr (a : Word) : Word := a + BitVec.ofNat 64 i.raw.length + i.disp.signExtend 64

theorem length_raw : i.raw.length = i.front.length + 5 + i.imm.length := by
  simp only [raw,List.length_append,List.length_cons,length_toBytes]
  omega

theorem modRM_fields (reg rm : BitVec 3) : (reg.setWidth 8 <<< 3 ||| rm.setWidth 8 : Byte).toNat / 64 = 0 ∧
    (reg.setWidth 8 <<< 3 ||| rm.setWidth 8 : Byte).toNat / 8 % 8 = reg.toNat ∧
      (reg.setWidth 8 <<< 3 ||| rm.setWidth 8 : Byte).toNat % 8 = rm.toNat := by
  revert reg rm
  decide

theorem eq_modRM {m : Byte} {rm : Nat} (small : rm < 8) (mod : m.toNat / 64 = 0) (reg : i.reg.toNat = m.toNat / 8 % 8)
    (field : m.toNat % 8 = rm) : m = i.modRM (BitVec.ofNat 3 rm) := by
  obtain ⟨top,middle,low⟩ := modRM_fields i.reg (BitVec.ofNat 3 rm)
  apply BitVec.eq_of_toNat_eq
  rw [BitVec.toNat_ofNat,Nat.mod_eq_of_lt small] at low
  change _ = (i.reg.setWidth 8 <<< 3 ||| (BitVec.ofNat 3 rm).setWidth 8 : Byte).toNat
  omega

/-- The operand is what stands behind the front, whatever follows it. -/
theorem memoryOperand_front {o : List Byte} {rm : RM} (read : decodeModRM i.bits o = some (i.reg.toNat,rm,o.length))
    (rest : List Byte) : memoryOperand (i.front ++ o ++ rest) = some rm := by
  have more := decodeModRM_append read rest
  cases i with
  | legacy i =>
    cases o with
    | nil => cases read
    | cons m bs =>
      have pop : i.opcode = [0x8f] → m.toNat % 32 < 8 := by
        intro pops
        have reg := (decodeModRM_sound read).1
        rw [RipRelative.reg,i.pop pops] at reg
        have none : (0 : BitVec 3).toNat = 0 := rfl
        omega
      have body := i.memoryOperand_body m (bs ++ rest) pop
      rw [front,List.append_assoc,List.cons_append,body]
      exact congrArg (Option.map (·.2.1)) more
  | escaped i =>
    have legacy : ∀ b, segmentByte b = true → legacyByte b = true := by decide
    have lead : ∀ lead : Lead, legacyByte lead.byte = false := fun lead => by cases lead <;> rfl
    have split : front (.escaped i) ++ o ++ rest =
        i.segment ++ i.lead.byte :: i.first :: (i.more ++ i.opcode :: (o ++ rest)) := by simp [front]
    have body : (front (.escaped i) ++ o ++ rest).dropWhile legacyByte =
        i.lead.byte :: i.first :: (i.more ++ i.opcode :: (o ++ rest)) := by
      rw [split,List.dropWhile_append_of_pos fun b listed => legacy b (i.known b listed),
        List.dropWhile_cons_of_neg (Bool.eq_false_iff.mp (lead i.lead))]
    have behind : (i.more ++ i.opcode :: (o ++ rest)).drop (i.lead.more + 1) = o ++ rest := by
      rw [← i.sized,← List.drop_drop,List.drop_left]
      rfl
    have escape : takeEscape (i.lead.byte :: i.first :: (i.more ++ i.opcode :: (o ++ rest))) =
        some (i.lead.bits i.first,o ++ rest) := by
      rw [takeEscape,escapeLead_byte i.lead i.first i.map,Option.map_some,behind]
    have operand : (decodeModRM (i.lead.bits i.first) (o ++ rest)).map (·.2.1) = some rm :=
      congrArg (Option.map (·.2.1)) more
    simp only [memoryOperand,body,escape,operand]

end RipRelative

end SelfPropelled.Machine
