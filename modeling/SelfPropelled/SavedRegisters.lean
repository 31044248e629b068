import SelfPropelled.CallIsolation

/-! The lookup of a saved register and of a part of one: the table of stack offsets, the
masks, and the stack pointer that no push saves. -/

namespace SelfPropelled.SavedRegisters
open Machine
open CallContext (Site regVal rspOffset)

/-- The bits of a 64-bit register that a register name stands for. -/
inductive Part
  | full
  | dword
  | word
  | lowByte
  | highByte
deriving DecidableEq, Repr

def Part.size : Part → Nat
  | .full => 8
  | .dword => 4
  | .word => 2
  | .lowByte | .highByte => 1

/-- A register as the instruction decoder names it. -/
structure MachRegister where
  reg : Reg
  part : Part
  real : part = .highByte → reg ∈ [.rax,.rbx,.rcx,.rdx]

def names : Reg → List String
  | .rax => ["rax","eax","ax","al","ah"]
  | .rbx => ["rbx","ebx","bx","bl","bh"]
  | .rcx => ["rcx","ecx","cx","cl","ch"]
  | .rdx => ["rdx","edx","dx","dl","dh"]
  | .rsi => ["rsi","esi","si","sil"]
  | .rdi => ["rdi","edi","di","dil"]
  | .rbp => ["rbp","ebp","bp","bpl"]
  | .rsp => ["rsp","esp","sp","spl"]
  | .r8 => ["r8","r8d","r8w","r8b"]
  | .r9 => ["r9","r9d","r9w","r9b"]
  | .r10 => ["r10","r10d","r10w","r10b"]
  | .r11 => ["r11","r11d","r11w","r11b"]
  | .r12 => ["r12","r12d","r12w","r12b"]
  | .r13 => ["r13","r13d","r13w","r13b"]
  | .r14 => ["r14","r14d","r14w","r14b"]
  | .r15 => ["r15","r15d","r15w","r15b"]

def Part.index : Part → Nat
  | .full => 0
  | .dword => 1
  | .word => 2
  | .lowByte => 3
  | .highByte => 4

def nameOf (reg : Reg) (part : Part) : String := "x86_64::" ++ (names reg).getD part.index ""

def MachRegister.name (r : MachRegister) : String := nameOf r.reg r.part

def savedRegMap (r : MachRegister) : Option Int := CallContext.savedRegMap r.reg

/-- The masks of 32-, 16- and low 8-bit registers are commented out in the source. -/
def getRegInternal (m : Memory) (loc : Word) (r : MachRegister) : Option Word :=
  match savedRegMap r with
  | none => none
  | some offset =>
    let out := regVal m loc offset
    if r.part.size = 8 then some out
    else if r.part.size = 4 then some out
    else if r.part.size = 2 then some out
    else if r.part.size = 1 then
      if 'h' ∈ r.name.toList then some ((0x000000000000ff00 &&& out) >>> 8) else some out
    else none

def getSavedReg (m : Memory) (loc : Word) (r : MachRegister) : Word :=
  match getRegInternal m loc r with
  | some out => out
  | none => if r.reg = .rsp then loc + rspOffset else 0

def Part.of (v : Word) : Part → Word
  | .full => v
  | .dword => (v.setWidth 32).setWidth 64
  | .word => (v.setWidth 16).setWidth 64
  | .lowByte => (v.setWidth 8).setWidth 64
  | .highByte => ((v >>> 8).setWidth 8).setWidth 64

/-- What the lookup makes of the value of the whole register. -/
def Part.kept (v : Word) : Part → Word
  | .highByte => (0x000000000000ff00 &&& v) >>> 8
  | _ => v

theorem name_high (r : MachRegister) : 'h' ∈ r.name.toList ↔ r.part = .highByte := by
  have each : ∀ reg part, (part = .highByte → reg ∈ [Reg.rax,.rbx,.rcx,.rdx]) →
      ('h' ∈ (nameOf reg part).toList ↔ part = Part.highByte) := by
    intro reg part
    cases part <;> cases reg <;> decide +kernel
  exact each r.reg r.part r.real

theorem getRegInternal_eq (m : Memory) (loc : Word) (r : MachRegister) :
    getRegInternal m loc r = (savedRegMap r).map fun offset => r.part.kept (regVal m loc offset) := by
  have high := name_high r
  cases mapped : savedRegMap r with
  | none => simp [getRegInternal,mapped]
  | some offset => cases part : r.part <;> simp [getRegInternal,mapped,part,Part.size,Part.kept,high]

theorem getSavedReg_part (m : Memory) (loc : Word) (r : MachRegister) :
    getSavedReg m loc r = r.part.kept (CallContext.getSavedReg m loc r.reg) := by
  obtain ⟨reg,part,real⟩ := r
  rw [getSavedReg,getRegInternal_eq]
  cases reg with
  | rsp =>
    have low : part ≠ .highByte := fun high => absurd (real high) (by decide)
    cases part with
    | highByte => exact absurd rfl low
    | _ => rfl
  | _ => rfl

theorem Part.kept_eq_of (p : Part) (v : Word) :
    p.kept v = p.of v ↔ p = .full ∨ p = .highByte ∨ v.toNat < 2 ^ (8 * p.size) := by
  have fits : ∀ n, n < 64 → (v = (v.setWidth n).setWidth 64 ↔ v.toNat < 2 ^ n) := by
    intro n small
    rw [← BitVec.toNat_inj,BitVec.toNat_setWidth,BitVec.toNat_setWidth]
    have below : v.toNat % 2 ^ n < 2 ^ 64 :=
      (Nat.mod_le _ _).trans_lt v.isLt
    rw [Nat.mod_eq_of_lt below]
    exact ⟨fun same => same ▸ Nat.mod_lt _ (by positivity),fun low => (Nat.mod_eq_of_lt low).symm⟩
  cases p with
  | full => simp [kept,of]
  | dword => simpa [kept,of,size] using fits 32 (by decide)
  | word => simpa [kept,of,size] using fits 16 (by decide)
  | lowByte => simpa [kept,of,size] using fits 8 (by decide)
  | highByte =>
    have moved : (0x000000000000ff00 &&& v) >>> 8 = (0xff : Word) &&& v >>> 8 := BitVec.ushiftRight_and_distrib _ _ _
    have masked : (0xff : Word) &&& v >>> 8 = ((v >>> 8).setWidth 8).setWidth 64 := by
      apply BitVec.eq_of_toNat_eq
      rw [BitVec.and_comm,BitVec.toNat_and,BitVec.toNat_setWidth,BitVec.toNat_setWidth]
      have low : (v >>> 8).toNat &&& (0xff : Word).toNat = (v >>> 8).toNat % 2 ^ 8 :=
        Nat.and_two_pow_sub_one_eq_mod _ 8
      rw [low,Nat.mod_eq_of_lt (a := _ % 2 ^ 8) (by omega)]
    exact iff_of_true (moved.trans masked) (.inr (.inl rfl))

theorem lookup_saved (indirect isTailCall : Bool) (loc : Word) (s : State) (code : Memory)
    (aligned : AlignedFor isTailCall (s.reg .rsp))
    (apart : Apart (s.reg .rsp - BitVec.ofNat 64 (contextSize indirect isTailCall))
      (contextSize indirect isTailCall) loc 8)
    (held : CodeAt code s.rip (emitSave indirect isTailCall loc)) :
    ∃ u, Falls code s u ∧ u.rip = s.rip + BitVec.ofNat 64 (emitSave indirect isTailCall loc).length ∧
      ∀ r : MachRegister, (Site.mk loc indirect isTailCall).Keeps r.reg →
        getSavedReg u.mem (load 64 u.mem loc) r = r.part.kept (s.reg r.reg) := by
  obtain ⟨u,save,saved⟩ := save_spec indirect isTailCall loc s aligned apart
  refine ⟨_,.straight (emitSave_assembles indirect isTailCall loc) held save,rfl,fun r keeps => ?_⟩
  rw [State.at_mem,saved.location,getSavedReg_part,CallContext.getSavedReg_saved saved keeps]

/-- Saved register lookup. After the save sequence of a snippet of any kind, run from any
call point, the lookup of a register the kind keeps, or of a part of one, gives the value it
had at the call instruction exactly when the part is the whole register, a high byte, or
wide enough for the register's value. -/
theorem saved_register_iff (indirect isTailCall : Bool) (loc : Word) (s : State) (code : Memory)
    (aligned : AlignedFor isTailCall (s.reg .rsp))
    (apart : Apart (s.reg .rsp - BitVec.ofNat 64 (contextSize indirect isTailCall))
      (contextSize indirect isTailCall) loc 8)
    (held : CodeAt code s.rip (emitSave indirect isTailCall loc)) :
    ∃ u, Falls code s u ∧ u.rip = s.rip + BitVec.ofNat 64 (emitSave indirect isTailCall loc).length ∧
      ∀ r : MachRegister, (Site.mk loc indirect isTailCall).Keeps r.reg →
        (getSavedReg u.mem (load 64 u.mem loc) r = r.part.of (s.reg r.reg) ↔
          r.part = .full ∨ r.part = .highByte ∨ (s.reg r.reg).toNat < 2 ^ (8 * r.part.size)) := by
  obtain ⟨u,runs,last,found⟩ := lookup_saved indirect isTailCall loc s code aligned apart held
  refine ⟨u,runs,last,fun r keeps => ?_⟩
  rw [found r keeps]
  exact r.part.kept_eq_of _

def wideCallPoint : State where
  reg r := match r with | .rsp => 0x7fffffffe000 | .rax => 0x123456789a | _ => 0
  xmm _ := 0
  flags := ⟨true,false,true,false,true,true⟩
  mem _ := 0
  rip := 0x403000

def savedFromWide : Memory := imageOf 0x403000 (emitSave true false 0x600000)

theorem wideCallPoint_apart : Apart (wideCallPoint.reg .rsp - BitVec.ofNat 64 (contextSize true false))
    (contextSize true false) 0x600000 8 := by
  intro x low field
  have size : contextSize true false = 272 := by decide
  rw [size] at low
  simp only [In,wideCallPoint] at low field
  bv_omega

theorem saved_register_iff_wideCallPoint :
    ∃ u, Falls savedFromWide wideCallPoint u ∧
      getSavedReg u.mem (load 64 u.mem 0x600000) ⟨.rax,.highByte,by decide⟩ = 0x78 := by
  obtain ⟨u,runs,_,found⟩ := saved_register_iff true false 0x600000 wideCallPoint savedFromWide
    (by unfold AlignedFor; decide) wideCallPoint_apart (codeAt_imageOf _ _ (by decide +kernel))
  refine ⟨u,runs,?_⟩
  rw [(found ⟨.rax,.highByte,by decide⟩ (by decide)).mpr (.inr (.inl rfl))]
  decide

/-- The lookup of %eax gives all of %rax. -/
theorem saved_register_wide : ∃ u, Falls savedFromWide wideCallPoint u ∧
    u.rip = wideCallPoint.rip + BitVec.ofNat 64 (emitSave true false 0x600000).length ∧
      getSavedReg u.mem (load 64 u.mem 0x600000) ⟨.rax,.dword,by decide⟩ ≠
        Part.dword.of (wideCallPoint.reg .rax) := by
  obtain ⟨u,runs,last,found⟩ := lookup_saved true false 0x600000 wideCallPoint savedFromWide
    (by unfold AlignedFor; decide) wideCallPoint_apart (codeAt_imageOf _ _ (by decide +kernel))
  refine ⟨u,runs,last,?_⟩
  rw [found ⟨.rax,.dword,by decide⟩ (by decide)]
  decide

end SelfPropelled.SavedRegisters
