import SelfPropelled.SavedRegisters

/-! The target of an indirect call: the visitor that evaluates the operand's expression
on a stack, and the address the processor computes. -/

namespace SelfPropelled.CallTarget
open Machine

/-- The value of a literal with its encoded size; the smaller members of the union are its low bytes. -/
structure Result where
  size : Nat
  val : Word
deriving DecidableEq, Repr

inductive Register
  | pc
  | other (r : SavedRegisters.MachRegister)

inductive BinaryFunction
  | add
  | multiply
  | other
deriving DecidableEq, Repr

inductive Expression
  | register (r : Register)
  | immediate (i : Result)
  | add (first second : Expression)
  | multiply (first second : Expression)
  | dereference (address : Expression)

/-- A node as the visitor meets it. -/
inductive Node
  | register (r : Register)
  | binary (b : BinaryFunction)
  | immediate (i : Result)
  | dereference

def Expression.postOrder : Expression → List Node
  | .register r => [.register r]
  | .immediate i => [.immediate i]
  | .add first second => first.postOrder ++ second.postOrder ++ [.binary .add]
  | .multiply first second => first.postOrder ++ second.postOrder ++ [.binary .multiply]
  | .dereference address => address.postOrder ++ [.dereference]

/-- An indirect call at `last`, its block's last instruction, with the saved registers and
the memory at the visit. -/
structure SpPoint where
  last : Word
  insnSize : Nat
  getSavedReg : SavedRegisters.MachRegister → Word
  mem : Memory

def SpPoint.blockEnd (pt : SpPoint) : Word := pt.last + BitVec.ofNat 64 pt.insnSize

structure SpVisitor where
  stack : List Word
  callAddr : Word

def SpVisitor.push (stack : List Word) (callAddr : Word) : SpVisitor := ⟨callAddr :: stack,callAddr⟩

/-- The member of the union that the size selects, as an address. -/
def Result.address (res : Result) : Word :=
  if res.size = 1 then (res.val.setWidth 8).setWidth 64
  else if res.size = 2 then (res.val.setWidth 16).setWidth 64
  else if res.size = 4 then (res.val.setWidth 32).setWidth 64
  else res.val

/-- A visit that pops an empty stack or fails its assertion yields nothing. -/
def SpVisitor.visit (pt : SpPoint) (segVal : Word) (v : SpVisitor) : Node → Option SpVisitor
  | .register .pc => some (push v.stack pt.blockEnd)
  | .register (.other r) => some (push v.stack (pt.getSavedReg r))
  | .binary b =>
    match v.stack with
    | i1 :: i2 :: rest =>
      if b = .add then some (push rest (i1 + i2))
      else if b = .multiply then some (push rest (i1 * i2))
      else none
    | _ => none
  | .immediate i => some (push v.stack i.address)
  | .dereference =>
    match v.stack with
    | top :: rest => some (push rest (load 64 pt.mem (top + segVal)))
    | [] => none

def Expression.apply (e : Expression) (pt : SpPoint) (v : SpVisitor) : Option SpVisitor :=
  e.postOrder.foldlM (SpVisitor.visit pt 0) v

def callAddr (pt : SpPoint) (e : Expression) : Option Word := (e.apply pt ⟨[],0⟩).map (·.callAddr)

/-- A literal as the processor takes it: sign-extended from its encoded size. -/
def Result.signExtended (res : Result) : Word :=
  if res.size = 1 then (res.val.setWidth 8).signExtend 64
  else if res.size = 2 then (res.val.setWidth 16).signExtend 64
  else if res.size = 4 then (res.val.setWidth 32).signExtend 64
  else res.val

/-- The value the processor computes for an operand expression. -/
def target (pt : SpPoint) : Expression → Word
  | .register .pc => pt.last + BitVec.ofNat 64 pt.insnSize
  | .register (.other r) => pt.getSavedReg r
  | .immediate i => i.signExtended
  | .add first second => target pt first + target pt second
  | .multiply first second => target pt first * target pt second
  | .dereference address => load 64 pt.mem (target pt address)

/-- The value the visitor computes, with its literals. -/
def visited (pt : SpPoint) : Expression → Word
  | .register .pc => pt.blockEnd
  | .register (.other r) => pt.getSavedReg r
  | .immediate i => i.address
  | .add first second => visited pt first + visited pt second
  | .multiply first second => visited pt first * visited pt second
  | .dereference address => load 64 pt.mem (visited pt address)

theorem apply_eq (pt : SpPoint) (e : Expression) (v : SpVisitor) :
    e.apply pt v = some (.push v.stack (visited pt e)) := by
  induction e generalizing v with
  | register r => cases r <;> rfl
  | immediate i => rfl
  | add first second ih₁ ih₂ | multiply first second ih₁ ih₂ =>
    simp only [Expression.apply] at ih₁ ih₂
    simp only [Expression.apply,Expression.postOrder,List.foldlM_append,ih₁,ih₂,Option.bind_eq_bind,
      Option.bind_some]
    simp [SpVisitor.visit,SpVisitor.push,visited,BitVec.add_comm,BitVec.mul_comm]
  | dereference address ih =>
    simp only [Expression.apply] at ih
    simp only [Expression.apply,Expression.postOrder,List.foldlM_append,ih,Option.bind_eq_bind,
      Option.bind_some]
    simp [SpVisitor.visit,SpVisitor.push,visited]

theorem callAddr_eq (pt : SpPoint) (e : Expression) : callAddr pt e = some (visited pt e) := by
  rw [callAddr,apply_eq]
  rfl

def Result.Negative (res : Result) : Prop :=
  (res.size = 1 ∨ res.size = 2 ∨ res.size = 4) ∧ res.val.getLsbD (8 * res.size - 1) = true

instance (res : Result) : Decidable res.Negative := by unfold Result.Negative; infer_instance

theorem setWidth_eq_signExtend {n : Nat} (narrow : n < 64) (x : BitVec n) :
    x.setWidth 64 = x.signExtend 64 ↔ x.msb = false := by
  refine ⟨fun same => ?_,fun positive => (BitVec.signExtend_eq_setWidth_of_msb_false positive).symm⟩
  have top := congrArg (·.getLsbD 63) same
  have above : ¬63 < n := by omega
  simp only [BitVec.getLsbD_setWidth,BitVec.getLsbD_signExtend,BitVec.getLsbD_of_ge x 63 (by omega),
    above,if_false,Bool.and_false] at top
  simpa using top.symm

theorem address_eq_signExtended (res : Result) : res.address = res.signExtended ↔ ¬res.Negative := by
  obtain ⟨size,val⟩ := res
  have short : ∀ n, 0 < n → n < 64 → ((val.setWidth n).setWidth 64 = (val.setWidth n).signExtend 64 ↔
      ¬val.getLsbD (n - 1) = true) := by
    intro n some narrow
    rw [setWidth_eq_signExtend narrow,BitVec.msb_eq_getLsbD_last,BitVec.getLsbD_setWidth]
    simp [some]
  simp only [Result.address,Result.signExtended,Result.Negative]
  split
  next one => subst one; simpa using short 8 (by decide) (by decide)
  next notOne =>
    split
    next two => subst two; simpa using short 16 (by decide) (by decide)
    next notTwo =>
      split
      next four => subst four; simpa using short 32 (by decide) (by decide)
      next notFour => simp [notOne,notTwo,notFour]

def Expression.parts : Expression → List Expression
  | .register r => [.register r]
  | .immediate i => [.immediate i]
  | .add first second => .add first second :: (first.parts ++ second.parts)
  | .multiply first second => .multiply first second :: (first.parts ++ second.parts)
  | .dereference address => .dereference address :: address.parts

def Expression.literals : Expression → List Result
  | .register _ => []
  | .immediate i => [i]
  | .add first second | .multiply first second => first.literals ++ second.literals
  | .dereference address => address.literals

def NonNegative (e : Expression) : Prop := ∀ i ∈ e.literals, ¬i.Negative

theorem Expression.immediate_mem_parts {e : Expression} {i : Result} (listed : i ∈ e.literals) :
    .immediate i ∈ e.parts := by
  induction e with
  | register r => cases listed
  | immediate j =>
    obtain rfl := List.mem_singleton.mp listed
    exact List.mem_singleton.mpr rfl
  | add first second ih₁ ih₂ | multiply first second ih₁ ih₂ =>
    rcases List.mem_append.mp listed with left | right
    · exact List.mem_cons_of_mem _ (List.mem_append_left _ (ih₁ left))
    · exact List.mem_cons_of_mem _ (List.mem_append_right _ (ih₂ right))
  | dereference address ih => exact List.mem_cons_of_mem _ (ih listed)

theorem NonNegative.part {e part : Expression} (positive : NonNegative e) (among : part ∈ e.parts) :
    NonNegative part := by
  induction e with
  | register r | immediate i =>
    obtain rfl := List.mem_singleton.mp among
    exact positive
  | add first second ih₁ ih₂ | multiply first second ih₁ ih₂ =>
    rcases List.mem_cons.mp among with rfl | inner
    · exact positive
    · rcases List.mem_append.mp inner with left | right
      · exact ih₁ (fun i listed => positive i (List.mem_append_left _ listed)) left
      · exact ih₂ (fun i listed => positive i (List.mem_append_right _ listed)) right
  | dereference address ih =>
    rcases List.mem_cons.mp among with rfl | inner
    · exact positive
    · exact ih positive inner

theorem visited_eq_target (pt : SpPoint) {e : Expression} (positive : NonNegative e) :
    visited pt e = target pt e := by
  induction e with
  | register r => cases r <;> rfl
  | immediate i => exact (address_eq_signExtended i).mpr (positive i (List.mem_singleton.mpr rfl))
  | add first second ih₁ ih₂ | multiply first second ih₁ ih₂ =>
    simp only [visited,target,ih₁ fun i listed => positive i (List.mem_append_left _ listed),
      ih₂ fun i listed => positive i (List.mem_append_right _ listed)]
  | dereference address ih => simp only [visited,target,ih positive]

/-- Indirect-call target evaluation. For every operand expression, register file and memory
the visitor computes every part of the expression as the processor does exactly when no
literal shorter than 8 bytes is negative, and then its call address is the target. -/
theorem call_target_iff (pt : SpPoint) (e : Expression) :
    ((∀ part ∈ e.parts, callAddr pt part = some (target pt part)) ↔ NonNegative e) ∧
      (NonNegative e → callAddr pt e = some (target pt e)) := by
  have right : ∀ {part : Expression}, NonNegative part → callAddr pt part = some (target pt part) :=
    fun positive => by rw [callAddr_eq,visited_eq_target pt positive]
  refine ⟨⟨fun all i listed => ?_,fun positive part among => right (positive.part among)⟩,right⟩
  have literal := all _ (Expression.immediate_mem_parts listed)
  rw [callAddr_eq,Option.some.injEq] at literal
  exact (address_eq_signExtended i).mp literal

/-- `call *8(%rip)`: the displacement is positive. -/
def forward : Expression := .dereference (.add (.register .pc) (.immediate ⟨4,8⟩))

/-- `call *-8(%rax)`, the displacement encoded in one byte. -/
def backward : Expression :=
  .dereference (.add (.register (.other ⟨.rax,.full,by decide⟩)) (.immediate ⟨1,0xf8⟩))

/-- A table of targets: 0x401000 is stored in front of the address in %rax. -/
def table : SpPoint where
  last := 0x403000
  insnSize := 3
  getSavedReg r := if r.reg = .rax then 0x600008 else 0
  mem := store (fun _ => 0) 0x600000 (0x401000 : Word)

theorem call_target_iff_forward : callAddr table forward = some (target table forward) :=
  (call_target_iff table forward).2 (by unfold NonNegative forward; decide)

/-- The displacement is taken as 248, and the word there is another one. -/
theorem call_target_backward : target table backward = 0x401000 ∧ callAddr table backward = some 0 := by
  decide +kernel

end SelfPropelled.CallTarget
