import SelfPropelled.Relocation

/-! Which instructions `reloc_insn` takes for PC-relative, against those whose
memory operand or `lea` address names the PC. -/

namespace SelfPropelled
open Machine

def instructionPrefix (b : Byte) : Bool :=
  [0x66,0x67,0xf0,0xf2,0xf3,0x26,0x2e,0x36,0x3e,0x64,0x65].contains b || b.toNat / 16 == 4

/-- The opcode after the prefixes is that of `lea`. -/
def Instruction.isLea (insn : Instruction) : Bool := (insn.raw.dropWhile instructionPrefix).head? == some 0x8d

/-- A memory operand or the address expression of a `lea` names the PC. -/
def Instruction.mentionsRip (insn : Instruction) : Bool :=
  (insn.memoryReadOperands ++ insn.memoryWriteOperands).any (·.usePC) ||
    insn.isLea && insn.operands.any (·.usePC)

def Instruction.pcNodes (insn : Instruction) : List RegisterNode :=
  ((insn.readSet.find? (·.reg == .rip)).toList ++ (insn.accessSet.find? (·.reg == .rip)).toList).dedup

/-- Where the detection is right: the operands it looks at are one expression
that names the PC, or nothing does; behind the byte of the `lea` opcode, the
register sets have one PC node just when an operand names the PC. -/
def DetectionExact (insn : Instruction) : Prop :=
  if insn.raw.getD 1 0 ≠ 0x8d then
    insn.mentionsRip = true → ∃ e, insn.opSet = [e] ∧ e.usePC = true
  else if insn.mentionsRip = true then insn.pcNodes.length = 1 else insn.pcNodes = []

/-- An operand that counts is a memory operand. -/
private theorem mentionsRip_of_opSet {insn : Instruction} {e : Expression} (listed : e ∈ insn.opSet)
    (uses : e.usePC = true) : insn.mentionsRip = true := by
  have memory : e ∈ insn.memoryReadOperands ++ insn.memoryWriteOperands := by
    simp only [Instruction.opSet] at listed
    split at listed
    · exact List.mem_append_left _ listed
    · split at listed
      · exact List.mem_append_right _ listed
      · cases listed
  simp only [Instruction.mentionsRip,Bool.or_eq_true,List.any_eq_true]
  exact .inl ⟨e,memory,uses⟩

/-- The branch of the memory operands answers for the last of them. -/
private theorem pcPath_memory {insn : Instruction} (other : insn.raw.getD 1 0 ≠ 0x8d) :
    pcPath insn = match insn.opSet.getLast? with
      | none => some false
      | some e => if e.usePC = true ∧ insn.opSet.length ≠ 1 then none else some e.usePC := by
  unfold pcPath
  rw [if_pos other]
  cases last : insn.opSet.getLast? with
  | none => simp
  | some e => cases uses : e.usePC <;> simp [uses]

private theorem found_answer (x y : Option RegisterNode) :
    (if (x.isSome || y.isSome) && (x.toList ++ y.toList).dedup.length != 1 then none
      else some (x.isSome || y.isSome)) =
    if (x.toList ++ y.toList).dedup = [] then some false
    else if (x.toList ++ y.toList).dedup.length = 1 then some true else none := by
  cases x with
  | none => cases y <;> simp
  | some x =>
    cases y with
    | none => simp
    | some y =>
      by_cases same : x = y
      · simp [same]
      · simp [same]

/-- The `lea` branch answers for the nodes it has collected. -/
private theorem pcPath_lea {insn : Instruction} (second : ¬insn.raw.getD 1 0 ≠ 0x8d) :
    pcPath insn = if insn.pcNodes = [] then some false
      else if insn.pcNodes.length = 1 then some true else none := by
  unfold pcPath
  rw [if_neg second]
  exact found_answer _ _

/-- Detection of PC-relative instructions is exact just under the condition. -/
theorem reloc_detection_iff (insn : Instruction) :
    pcPath insn = some insn.mentionsRip ↔ DetectionExact insn := by
  unfold DetectionExact
  split
  next other =>
    rw [pcPath_memory other]
    cases last : insn.opSet.getLast? with
    | none =>
      have empty : insn.opSet = [] := List.getLast?_eq_none_iff.mp last
      simp [empty]
    | some e =>
      have listed : e ∈ insn.opSet := List.mem_of_getLast? last
      cases uses : e.usePC with
      | true =>
        have mentions := mentionsRip_of_opSet listed uses
        by_cases one : insn.opSet.length = 1
        · obtain ⟨x,single⟩ := List.length_eq_one_iff.mp one
          have same : x = e := by simpa [single] using last
          simp [uses,mentions,single,same]
        · have several : ¬∃ x, insn.opSet = [x] ∧ x.usePC = true := by
            rintro ⟨x,single,_⟩
            exact one (by simp [single])
          simp [uses,mentions,one,several]
      | false =>
        have different : ¬∃ x, insn.opSet = [x] ∧ x.usePC = true := by
          rintro ⟨x,single,named⟩
          have same : x = e := by simpa [single] using last
          rw [same,uses] at named
          cases named
        simp [uses,different]
  next second =>
    rw [pcPath_lea second]
    cases mentions : insn.mentionsRip with
    | true =>
      by_cases empty : insn.pcNodes = []
      · simp [empty]
      · by_cases one : insn.pcNodes.length = 1 <;> simp [empty,one]
    | false =>
      by_cases empty : insn.pcNodes = []
      · simp [empty]
      · by_cases one : insn.pcNodes.length = 1 <;> simp [empty,one]

def plainLea : Instruction where
  raw := [0x8d,0x05,0x00,0x20,0x00,0x00]
  readsMemory := false
  writesMemory := false
  memoryReadOperands := []
  memoryWriteOperands := []
  readSet := [⟨1,.rip⟩]
  accessSet := [⟨1,.rip⟩,⟨2,.other 0⟩]
  operands := [.register (.other 0),.add (.register .rip) (.immediate 0x2000)]
  controlFlowTarget := none

/-- It is copied as it is. -/
theorem reloc_detection_plainLea : plainLea.mentionsRip = true ∧
    ∀ lib a last p, a ≠ last → relocInsn lib a plainLea last p = some plainLea.raw := by
  refine ⟨by decide,fun lib a last p different => ?_⟩
  have copied : pcPath plainLea = some false := by decide
  simp [relocInsn,different,copied,relocInsnInternal]

end SelfPropelled
