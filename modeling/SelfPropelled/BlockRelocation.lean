import SelfPropelled.OperandRelocation

/-! What a relocated block does, against the block it was copied from: each
instruction reads and writes what it did where it stood. -/

namespace SelfPropelled
open Machine

/-- The encodings of an instruction that differ in its memory operand only. -/
inductive Encoding (i : RipRelative) : List Byte → Prop
  | disp (d : BitVec 32) : Encoding i (i.front ++ i.modRM 5 :: toBytes 4 d ++ i.imm)
  | abs (scale : BitVec 2) (d : BitVec 32) : Encoding i (i.front ++ i.modRM 4 :: plainSib scale :: toBytes 4 d ++ i.imm)

theorem Encoding.raw (i : RipRelative) : Encoding i i.raw := by
  have encoding := Encoding.disp (i := i) i.disp
  rwa [List.append_assoc,List.cons_append] at encoding

theorem emittedOperand_raw (i : RipRelative) (a : Word) (s : State) :
    emittedOperand i.raw a s = some (i.targetAddr a) := by
  have plain : unwrap i.raw = some ([],i.raw) := by
    have split := List.take_append_drop i.head.length i.raw
    rw [(raw_cut i).1] at split
    rw [← split]
    exact unwrap_plain i _
  have inside : memoryOperand i.raw = some (.rip (i.disp.signExtend 64)) := by
    have operand := i.memoryOperand_front (read_rip i i.disp) i.imm
    rwa [List.append_assoc,List.cons_append] at operand
  simp [emittedOperand,plain,inside,RM.address,RipRelative.targetAddr]

/-- What the processor does with the bytes of an instruction that stands at an address, up
to the instruction pointer. An instruction with a RIP-relative operand depends on
where it stands through the address of its operand. -/
structure Cpu where
  run : List Byte → Word → State → Option State
  moved : ∀ bytes p s q, run bytes p (s.at q) = (run bytes p s).map (·.at q)
  operand : ∀ i, ∃ step : Option Word → State → Option State, ∀ bytes, Encoding i bytes →
    ∀ p s, run bytes p s = step (emittedOperand bytes p s) s

section
variable (cpu : Cpu) (lib : ArchX86) (last : Word)

def runBlock : List (Word × Instruction) → State → Option State
  | [], s => some s
  | (a,insn) :: rest, s =>
    if a = last then runBlock rest s else (cpu.run insn.raw a s).bind (runBlock rest)

def runMoved : List (Word × Instruction) → Word → State → Option State
  | [], _, s => some s
  | (a,insn) :: rest, p, s =>
    (relocInsn lib a insn last p).bind fun bytes =>
      (if a = last then some s else cpu.run bytes p s).bind (runMoved rest (p + BitVec.ofNat 64 bytes.length))

/-- An instruction that does at `p` what it does at `a`: it is copied and does not depend on
its address, or it is taken for the PC-relative one it is and one of the two encodings
without a pointer register expresses its operand. -/
inductive Movable (a p : Word) (insn : Instruction) : Prop
  | free (copied : pcPath insn = some false) (anywhere : ∀ s, cpu.run insn.raw p s = cpu.run insn.raw a s)
  | rip (i : RipRelative) (reported : Reported i insn) (prefixes : lib.countPrefixes i.raw = i.prefixes.length)
      (detected : pcPath insn = some true) (expressible : Expressible lib i a p)
      (direct : lib.isDisp32 (i.targetAddr a - p + BitVec.ofNat 64 i.raw.length) = true ∨
        lib.isAddr32 (i.targetAddr a) = true)

def AllMovable : List (Word × Instruction) → Word → Prop
  | [], _ => True
  | (a,insn) :: rest, p => (a ≠ last → Movable cpu lib a p insn) ∧
      ∀ bytes, relocInsn lib a insn last p = some bytes → AllMovable rest (p + BitVec.ofNat 64 bytes.length)

end

section
variable {cpu : Cpu} {lib : ArchX86} {last : Word}

theorem Movable.run_eq {a p : Word} {insn : Instruction} (movable : Movable cpu lib a p insn)
    (inner : a ≠ last) : ∃ bytes, relocInsn lib a insn last p = some bytes ∧
      ∀ s, cpu.run bytes p s = cpu.run insn.raw a s := by
  cases movable with
  | free copied anywhere =>
    refine ⟨insn.raw,?_,anywhere⟩
    simp [relocInsn,inner,copied,relocInsnInternal]
  | rip i reported prefixes detected expressible direct =>
    obtain ⟨bytes,made,form⟩ := relocInsnInternal_rip reported prefixes a p
    have encoding : Encoding i bytes ∧ OperandKept lib i insn a p := by
      unfold Expressible at expressible
      cases form with
      | disp near =>
        rw [if_pos near] at expressible
        have kept := (kept_disp made rfl).mpr expressible
        have same := (lands_disp_iff i _).mpr expressible.2
        exact ⟨same ▸ .disp _,kept⟩
      | abs notNear low =>
        simp only [notNear,low,Bool.false_eq_true,if_false,if_true] at expressible
        have kept := (kept_abs made rfl).mpr expressible
        obtain ⟨scale,same⟩ := (lands_abs_iff i _).mpr expressible.2.2
        exact ⟨same ▸ .abs scale _,kept⟩
      | far notNear high =>
        rw [notNear,high] at direct
        simp at direct
    obtain ⟨step,meaning⟩ := cpu.operand i
    refine ⟨bytes,by simp [relocInsn,inner,detected,made],fun s => ?_⟩
    rw [reported.raw,meaning bytes encoding.1,meaning i.raw (.raw i),encoding.2.operand made,emittedOperand_raw]

theorem runMoved_eq {insns : List (Word × Instruction)} {p : Word} (movable : AllMovable cpu lib last insns p) :
    ∃ moved, relocBlock lib insns last p = some moved ∧
      ∀ s q, runMoved cpu lib last insns p (s.at q) = (runBlock cpu last insns s).map (·.at q) := by
  induction insns generalizing p with
  | nil => exact ⟨[],rfl,fun _ _ => rfl⟩
  | cons head rest ih =>
    obtain ⟨a,insn⟩ := head
    obtain ⟨first,later⟩ := movable
    by_cases final : a = last
    · have none : relocInsn lib a insn last p = some [] := if_pos final
      obtain ⟨moved,copied,same⟩ := ih (later [] none)
      refine ⟨moved,by simpa [relocBlock,none] using copied,fun s q => ?_⟩
      simp only [runBlock,runMoved,none,if_pos final,Option.bind_some]
      exact same s q
    · obtain ⟨bytes,made,does⟩ := (first final).run_eq final
      obtain ⟨moved,copied,same⟩ := ih (later bytes made)
      refine ⟨bytes ++ moved,by simp [relocBlock,made,copied],fun s q => ?_⟩
      simp only [runBlock,runMoved,made,if_neg final,Option.bind_some,cpu.moved,does]
      cases cpu.run insn.raw a s with
      | none => rfl
      | some t => exact same t q

end

end SelfPropelled
