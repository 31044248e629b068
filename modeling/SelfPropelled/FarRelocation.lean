import SelfPropelled.OperandRelocation

/-! The far form of a relocated instruction, whatever the instruction does with
its operand, its registers and the flags. -/

namespace SelfPropelled
open Machine

instance (a : Word) (n : Nat) (x : Word) : Decidable (In a n x) := inferInstanceAs (Decidable (_ < _))

/-- The first memory inside the region, the second outside it. -/
def overlay (a : Word) (n : Nat) (inner outer : Memory) : Memory :=
  fun y => if In a n y then inner y else outer y

theorem overlay_agree {a : Word} {n : Nat} {inner outer : Memory}
    (same : ∀ y, In a n y → outer y = inner y) : overlay a n inner outer = outer := by
  funext y
  unfold overlay
  split
  next inside => exact (same y inside).symm
  next => rfl

/-- An instruction with a memory operand after which control falls through, by
the registers it reads or writes, explicitly or implicitly. One that does not
use the stack pointer touches no memory but its operand. -/
structure Operation (uses : List Reg) where
  width : Nat
  step : Word → State → Option State
  frame : ∀ r ∉ uses, ∀ x s v, step x (s.set r v) = (step x s).map (·.set r v)
  localTo : Reg.rsp ∉ uses → ∀ x s m, (∀ y, In x width y → m y = s.mem y) →
    step x {s with mem := m} = (step x s).map fun t => {t with mem := overlay x width t.mem m}

namespace Operation
variable {uses : List Reg} (op : Operation uses)

theorem untouched {r : Reg} (unused : r ∉ uses) {x : Word} {s t : State} (done : op.step x s = some t) :
    t.reg r = s.reg r := by
  have same : s.set r (s.reg r) = s := by
    simp only [State.set]
    congr 1
    funext q
    by_cases here : q = r
    · rw [if_pos here,here]
    · rw [if_neg here]
  have moved := op.frame r unused x s (s.reg r)
  rw [same,done,Option.map_some] at moved
  rw [Option.some.inj moved,State.set_reg,if_pos rfl]

theorem confined (stackless : Reg.rsp ∉ uses) {x : Word} {s t : State} (done : op.step x s = some t) :
    SameOutside x op.width s.mem t.mem := by
  intro y outside
  have moved := op.localTo stackless x s s.mem fun _ _ => rfl
  rw [done,Option.map_some] at moved
  have kept := congrArg (fun u => u.mem y) (Option.some.inj moved)
  simpa only [overlay,if_neg outside] using kept

end Operation

/-- The same registers, flags and memory, but for the eight dead bytes below the
stack pointer; or both have failed. -/
def SameEffect (rsp : Word) : Option State → Option State → Prop
  | none, none => True
  | some t, some u => u.reg = t.reg ∧ u.xmm = t.xmm ∧ u.flags = t.flags ∧
      ∀ x, ¬In (rsp - 8) 8 x → u.mem x = t.mem x
  | _, _ => False

/-- The machine after the far form: push, register load, the instruction on the
operand its bytes name, and the pop in the last byte. -/
def runFar {uses : List Reg} (op : Operation uses) (bytes : List Byte) (p : Word) (s : State) :
    Option State :=
  match unwrap bytes,decode (bytes.drop (bytes.length - 1)) with
  | some (before,_),some (.op restore,_) => do
    let t ← applyOps before s
    let u ← op.step (← emittedOperand bytes p s) t
    restore.apply u
  | _,_ => none

/-- The far form has the instruction in it and does what the original does, for every instruction
with this encoding that uses these registers, in every state whose operand is apart from
the dead word below the stack pointer. -/
def FarPreserved (lib : ArchX86) (i : RipRelative) (insn : Instruction) (uses : List Reg) (a p : Word) : Prop :=
  ∃ bytes before inner rm, relocInsnInternal lib a insn true p = some bytes ∧ unwrap bytes = some (before,inner) ∧
    Respelled i inner rm ∧
    ∀ (op : Operation uses) (s : State), Apart (i.targetAddr a) op.width (s.reg .rsp - 8) 8 →
      SameEffect (s.reg .rsp) (op.step (i.targetAddr a) s) (runFar op bytes p s)

theorem pointerReg_ne_rsp (i : RipRelative) : i.pointerReg ≠ .rsp := by
  rcases pointer_cases i with ⟨reg,_⟩ | ⟨reg,_⟩ <;> rw [reg] <;> decide

theorem runFar_eq {uses : List Reg} (op : Operation uses) {i : RipRelative} {target : Word} {inner bytes : List Byte}
    (form : bytes = pushBytes 0x50 i.pointerReg ++
      ([0x48,if i.pointerReg = .rax then 0xb8 else 0xbb] ++ toBytes 8 target) ++ inner ++ pushBytes 0x58 i.pointerReg)
    (p : Word) (s : State) : runFar op bytes p s = (emittedOperand bytes p s).bind fun x =>
      (op.step x (pointed i.pointerReg target s)).bind (Op.pop i.pointerReg).apply := by
  have unwrapped := unwrap_far i target inner
  rw [← form] at unwrapped
  have last : bytes.drop (bytes.length - 1) = pushBytes 0x58 i.pointerReg := by
    have one : (pushBytes 0x58 i.pointerReg).length = 1 := by
      rcases pointer_cases i with ⟨reg,_⟩ | ⟨reg,_⟩ <;> rw [reg] <;> rfl
    rw [form,List.length_append,one,Nat.add_sub_cancel,List.drop_left]
  have restore := (encodes_pop i.pointerReg).decoded []
  rw [List.append_nil] at restore
  rw [runFar,unwrapped,last,restore]
  rfl

theorem far_sameEffect {uses : List Reg} (op : Operation uses) {r : Reg} (plain : r ≠ .rsp)
    (pointerFree : r ∉ uses) (stackless : Reg.rsp ∉ uses) {target : Word} {s : State}
    (apart : Apart target op.width (s.reg .rsp - 8) 8) :
    SameEffect (s.reg .rsp) (op.step target s)
      ((op.step target (pointed r target s)).bind (Op.pop r).apply) := by
  let slot := s.reg .rsp - 8
  let saved := store s.mem slot (s.reg r)
  have frame := sameOutside_store s.mem slot (s.reg r)
  have same : ∀ y, In target op.width y → saved y = s.mem y :=
    fun y inside => frame y (apart y inside)
  have moved : op.step target (pointed r target s) = (op.step target s).map fun t =>
      (State.set {t with mem := overlay target op.width t.mem saved} .rsp slot).set r target := by
    have steps := op.frame r pointerFree target (State.set {s with mem := saved} .rsp slot) target
    rw [op.frame .rsp stackless,op.localTo stackless target s saved same,Option.map_map,Option.map_map] at steps
    exact steps
  rw [moved]
  cases done : op.step target s with
  | none => trivial
  | some t =>
    have held : load 64 (overlay target op.width t.mem saved) slot = s.reg r := by
      have other : load 64 (overlay target op.width t.mem saved) slot = load 64 saved slot :=
        load_congr (by decide) fun y inside => if_neg fun within => apart y within inside
      rw [other]
      exact load_store s.mem slot (s.reg r) (by decide) (by decide)
    have registers := op.untouched pointerFree done
    have stack := op.untouched stackless done
    have memory := op.confined stackless done
    refine ⟨?_,rfl,rfl,fun y outside => ?_⟩
    · funext q
      by_cases pointer : q = r
      · subst q
        simp [plain.symm,held,registers]
      · by_cases top : q = .rsp
        · subst q
          simp [plain.symm,stack,slot]
        · simp [pointer,top]
    · change (if In target op.width y then t.mem y else saved y) = t.mem y
      split
      next => rfl
      next beyond => exact (frame y outside).trans (memory y beyond).symm

def clearing {uses : List Reg} (r : Reg) (used : r ∈ uses) : Operation uses where
  width := 0
  step _ s := some (s.set r 0)
  frame q unused x s v := by
    have other : q ≠ r := fun same => unused (same ▸ used)
    simp only [Option.map_some,Option.some_inj,State.set,State.mk.injEq,and_self,and_true]
    funext z
    by_cases first : z = r
    · subst first
      simp [other.symm]
    · simp [first]
  localTo _ x s m same := by
    have kept : overlay x 0 (s.set r 0).mem m = m := overlay_agree same
    rw [Option.map_some,kept]
    rfl

def comparing {uses : List Reg} (used : Reg.rsp ∈ uses) : Operation uses where
  width := 0
  step _ s := some {s with flags := {s.flags with zf := decide (s.reg .rsp = 0)}}
  frame q unused x s v := by
    have other : Reg.rsp ≠ q := fun same => unused (same ▸ used)
    simp [State.set,other]
  localTo stackless := absurd used stackless

def testing {uses : List Reg} : Operation uses where
  width := 1
  step x s := some {s with flags := {s.flags with zf := decide (s.mem x = 0)}}
  frame _ _ _ _ _ := rfl
  localTo _ x s m same := by
    have here : In x 1 x := by simp [In]
    simp [same x here,overlay_agree same]

private theorem sameEffect_some {rsp : Word} {t : State} {v : Option State}
    (same : SameEffect rsp (some t) v) : ∃ u, v = some u ∧ u.reg = t.reg ∧ u.flags = t.flags := by
  cases v with
  | none => exact same.elim
  | some u => exact ⟨u,rfl,same.1,same.2.2.1⟩

/-- The pushed word comes back, whatever the instruction has put in the register. -/
private theorem popped_clearing {uses : List Reg} {r : Reg} (plain : r ≠ .rsp) (used : r ∈ uses)
    (x target : Word) (s : State) :
    ∃ u, ((clearing r used).step x (pointed r target s)).bind (Op.pop r).apply = some u ∧
      u.reg r = s.reg r := by
  refine ⟨_,rfl,?_⟩
  have held := load_store s.mem (s.reg .rsp - 8) (s.reg r) (by decide) (by decide)
  simpa [pointed,plain.symm] using held

/-- Where the far form does what the original does, its operand is in the pointer register. -/
theorem far_direct {lib : ArchX86} {i : RipRelative} {insn : Instruction} {uses : List Reg} {a p : Word} {bytes : List Byte}
    (made : relocInsnInternal lib a insn true p = some bytes)
    (form : bytes = pushBytes 0x50 i.pointerReg ++
      ([0x48,if i.pointerReg = .rax then 0xb8 else 0xbb] ++ toBytes 8 (i.targetAddr a)) ++
      (i.head ++ [(i.taken &&& 0xf8) + i.pointerLow.setWidth 8] ++ i.rest) ++ pushBytes 0x58 i.pointerReg)
    (kept : FarPreserved lib i insn uses a p) :
    i.bits.b = false ∧ i.Lands [(i.taken &&& 0xf8) + i.pointerLow.setWidth 8] [i.modRM i.pointerLow] := by
  have unwrapped := unwrap_far i (i.targetAddr a) (i.head ++ [(i.taken &&& 0xf8) + i.pointerLow.setWidth 8] ++ i.rest)
  rw [← form] at unwrapped
  obtain ⟨other,before,inner,rm,made',unwrapped',⟨o,spelled,read⟩,same⟩ := kept
  obtain rfl := Option.some.inj (made.symm.trans made')
  obtain ⟨rfl,rfl⟩ := Prod.mk.inj (Option.some.inj (unwrapped.symm.trans unwrapped'))
  let target := i.targetAddr a
  let s : State := {noState with
    reg := fun q => if q = .rsp then target + 72 else target + 16
    mem := fun y => if y = target then 1 else 0}
  have away : Apart target 1 (s.reg .rsp - 8) 8 := by
    intro y inside dead
    simp only [In,s,if_true] at inside dead
    bv_omega
  have effect := same testing s away
  rw [runFar_eq testing form,emittedOperand_far unwrapped spelled read] at effect
  rcases operand_one read (one_of_spelled i spelled) with ⟨r,rfl⟩ | ⟨low,notSib,notRip,rfl,rfl⟩
  · exact effect.elim
  · have only : Reg.numbered (extend i.bits.b low.toNat) = i.pointerReg := by
      by_contra redirected
      have operand : MemRef.addr ⟨some (Reg.numbered (extend i.bits.b low.toNat)),none,0⟩
          (pointed i.pointerReg target s).reg = target + 16 := by
        simp [MemRef.addr,pointed_reg,redirected,(numbered_pointer i notSib notRip).1,s]
      rw [RM.address,operand,Option.bind_some] at effect
      obtain ⟨v,done,_,flags⟩ := sameEffect_some effect
      cases done
      have outside : ¬In (s.reg .rsp - 8) (64 / 8) (target + 16) := by
        simp only [In,s,if_true]
        bv_omega
      have loaded : (pointed i.pointerReg target s).mem (target + 16) = 0 := by
        have kept := sameOutside_store s.mem (s.reg .rsp - 8) (s.reg i.pointerReg) _ outside
        refine kept.trans (if_neg ?_)
        bv_omega
      have zero := congrArg Flags.zf flags
      change decide ((pointed i.pointerReg target s).mem (target + 16) = 0) =
        decide ((if target = target then (1 : Byte) else 0) = 0) at zero
      rw [loaded,if_pos rfl] at zero
      cases zero
    obtain ⟨direct,rfl⟩ := (numbered_pointer i notSib notRip).2.mp only
    exact ⟨direct,(lands_far_iff i).mp spelled⟩

/-- `mulq 0x1000(%rip)`. -/
def mulq : RipRelative := .legacy ⟨[],some 8,[0xf7],4,0x1000,[],noLegacy,by decide,by decide,by decide⟩

def mulqInsn : Instruction where
  raw := mulq.raw
  readsMemory := true
  writesMemory := false
  memoryReadOperands := [.add (.register .rip) (.immediate 0x1000)]
  memoryWriteOperands := []
  readSet := [⟨1,.rip⟩,⟨2,.other 0⟩]
  accessSet := [⟨1,.rip⟩,⟨2,.other 0⟩,⟨3,.other 2⟩]
  operands := [.register (.other 0),.dereference (.add (.register .rip) (.immediate 0x1000))]
  controlFlowTarget := none

theorem mulq_reported : Reported mulq mulqInsn where
  raw := rfl
  operand := by
    refine .inl ⟨⟨_,List.mem_singleton.mpr rfl,rfl⟩,fun e listed _ pc => ?_⟩
    cases List.mem_singleton.mp listed
    rfl

/-- What it does: %rdx:%rax becomes the product of %rax and the operand. -/
def mulqOperation : Operation [.rax,.rdx] where
  width := 8
  step x s :=
    let product : BitVec 128 := (s.reg .rax).setWidth 128 * (load 64 s.mem x).setWidth 128
    let high : Word := (product >>> 64).setWidth 64
    some {(s.set .rax (product.setWidth 64)).set .rdx high with
      flags := {s.flags with cf := decide (high ≠ 0), of := decide (high ≠ 0)}}
  frame q unused x s v := by
    simp only [List.mem_cons,List.not_mem_nil,or_false,not_or] at unused
    simp only [if_neg (Ne.symm unused.1),Option.map_some,Option.some_inj,State.set,
      State.mk.injEq,and_self,and_true]
    funext z
    by_cases here : z = q
    · subst here
      simp [unused.1,unused.2]
    · simp [here]
  localTo _ x s m same := by
    have read : load 64 m x = load 64 s.mem x := load_congr (by decide) same
    simp only [read,Option.map_some]
    congr 1
    simp [State.set,overlay_agree same]

/-- %rax is 2 and the operand 3. -/
def multiplying : State where
  reg q := if q = .rsp then 0x8000 else 2
  xmm _ := 0
  flags := ⟨false,false,false,false,false,false⟩
  mem := store (fun _ => 0) (mulq.targetAddr 0x7f0000001000) (3 : Word)
  rip := 0

end SelfPropelled
