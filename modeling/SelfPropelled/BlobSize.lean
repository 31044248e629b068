import SelfPropelled.WorkerSteps

/-! How many bytes are generated: the blob against the estimate it is allocated by,
the relocated spring block against its allocation. -/

namespace SelfPropelled
open Machine

theorem length_emitSave (indirect isTailCall : Bool) (loc : Word) :
    (emitSave indirect isTailCall loc).length = if indirect then 98 else 84 := by
  have xmm : (emitXMMRegsSaveRestore false).length = 39 := by decide
  cases indirect <;> cases isTailCall <;> simp [emitSave,emitSaveSp,emitSaveFpRegisters,xmm]

theorem length_emitRestore (indirect isTailCall : Bool) :
    (emitRestore indirect isTailCall).length = if indirect then 85 else 71 := by
  cases indirect <;> cases isTailCall <;> decide

theorem length_emitPassParam (point payload : Word) : (emitPassParam point payload).length ≤ 20 := by
  simp only [emitPassParam,emitMovImm64Rdi,emitMovImm64Rsi]
  split <;> simp

namespace Snippet

theorem length_aroundWrapper (snip : Snippet) (wrapper payload p : Word) :
    (snip.aroundWrapper wrapper payload p).length ≤ 216 := by
  have save := length_emitSave snip.indirect snip.tailcall snip.savedContextLoc
  have param := length_emitPassParam snip.point payload
  have call := length_emitCallAbs wrapper (p + BitVec.ofNat 64
    (emitSave snip.indirect snip.tailcall snip.savedContextLoc ++ emitPassParam snip.point payload).length)
  have restore := length_emitRestore snip.indirect snip.tailcall
  simp only [aroundWrapper,callWrapper,List.length_append] at *
  split at save <;> split at restore <;> omega

theorem length_emitExit (snip : Snippet) (p : Word) : (snip.emitExit p).length ≤ 233 := by
  have around := snip.length_aroundWrapper snip.wrapperExit snip.exit p
  have jump := length_emitJumpAbs snip.retAddr
    (p + BitVec.ofNat 64 (snip.aroundWrapper snip.wrapperExit snip.exit p).length) false
  simp only [emitExit,List.length_append,jumpAbsSize] at *
  omega

end Snippet

/-- How many bytes a rewritten instruction grows by: none with a new displacement,
one with an absolute address, eight with the address in a register. -/
def growth (lib : ArchX86) (a : Word) (insn : Instruction) (p : Word) : Nat :=
  let targetAddr := ((getTargetAddr a insn).getD none).getD 0
  if lib.isDisp32 (targetAddr - p + BitVec.ofNat 64 insn.raw.length) then 0
  else if lib.isAddr32 targetAddr then 1 else 8

theorem growth_le (lib : ArchX86) (a : Word) (insn : Instruction) (p : Word) : growth lib a insn p ≤ 8 := by
  simp only [growth]
  split
  · omega
  · split <;> omega

theorem length_relocInsnInternal {lib : ArchX86} {a p : Word} {insn : Instruction} {bs : List Byte}
    (made : relocInsnInternal lib a insn true p = some bs) :
    bs.length = min (opcodeSize lib insn.raw) insn.raw.length +
      (insn.raw.length - (opcodeSize lib insn.raw + 5)) + 5 + growth lib a insn p := by
  simp only [relocInsnInternal,if_true,Option.bind_eq_bind,Option.bind_eq_some_iff] at made
  obtain ⟨target,computed,made⟩ := made
  simp only [growth,computed,Option.getD_some]
  cases near : lib.isDisp32 (target.getD 0 - p + BitVec.ofNat 64 insn.raw.length) with
  | true =>
    simp only [near,Bool.not_true,Bool.false_and,Bool.false_eq_true,if_false,if_true] at made ⊢
    obtain rfl := Option.some.inj made
    simp
    omega
  | false =>
    cases low : lib.isAddr32 (target.getD 0) with
    | true =>
      simp only [near,low,Bool.not_true,Bool.not_false,Bool.and_false,Bool.false_eq_true,if_false,
        if_true] at made ⊢
      obtain rfl := Option.some.inj made
      simp
      omega
    | false =>
      simp only [near,low,Bool.not_false,Bool.and_true,Bool.false_eq_true,if_false,if_true] at made ⊢
      obtain rfl := Option.some.inj made
      have push : ∀ c : Prop, [Decidable c] → (emitPushReg64 (if c then 0 else 3)).length = 1 := by
        intro c _
        split <;> rfl
      have pop : ∀ c : Prop, [Decidable c] → (emitPopReg64 (if c then 0 else 3)).length = 1 := by
        intro c _
        split <;> rfl
      have mov : ∀ c : Prop, [Decidable c] → ∀ imm, (emitMovImmToReg64 (if c then 0 else 3) imm).length = 10 := by
        intro c _ imm
        split <;> simp [emitMovImmToReg64,emitRex]
      simp only [List.length_append,push,pop,mov,List.length_take,List.length_drop,List.length_cons,
        List.length_nil]
      omega

namespace Workers

theorem usePC_of_pcPath {insn : Instruction} (path : pcPath insn = some true)
    (reads : (∃ e ∈ insn.memoryReadOperands ++ insn.memoryWriteOperands, e.usePC = true) →
      ∃ r ∈ insn.readSet, r.reg = .rip) : usePC insn = true := by
  have uses : ∀ r ∈ insn.readSet ++ insn.accessSet, r.reg = .rip → usePC insn = true := by
    intro r member pc
    exact List.any_eq_true.mpr ⟨r,member,by simp [pc]⟩
  by_cases lea : insn.raw.getD 1 0 ≠ 0x8d
  · simp only [pcPath,if_pos lea,Option.ite_none_left_eq_some,Option.some.injEq] at path
    cases last : insn.opSet.getLast? with
    | none => simp [last] at path
    | some e =>
      have named : e.usePC = true := by simpa [last] using path.2
      have member : e ∈ insn.opSet := List.mem_of_getLast? last
      have listed : e ∈ insn.memoryReadOperands ++ insn.memoryWriteOperands := by
        simp only [Instruction.opSet] at member
        split at member
        · exact List.mem_append_left _ member
        · split at member
          · exact List.mem_append_right _ member
          · cases member
      obtain ⟨r,read,pc⟩ := reads ⟨e,listed,named⟩
      exact uses r (List.mem_append_left _ read) pc
  · simp only [pcPath,if_neg lea,Option.ite_none_left_eq_some,Option.some.injEq,Bool.or_eq_true,
      Option.isSome_iff_exists] at path
    rcases path.2 with ⟨r,found⟩ | ⟨r,found⟩
    · exact uses r (List.mem_append_left _ (List.mem_of_find?_eq_some found)) (by simpa using List.find?_some found)
    · exact uses r (List.mem_append_right _ (List.mem_of_find?_eq_some found)) (by simpa using List.find?_some found)

theorem length_relocInsn_le {lib : ArchX86} {a last p : Word} {insn : Instruction} {bs : List Byte}
    (made : relocInsn lib a insn last p = some bs)
    (reads : (∃ e ∈ insn.memoryReadOperands ++ insn.memoryWriteOperands, e.usePC = true) →
      ∃ r ∈ insn.readSet, r.reg = .rip) :
    bs.length ≤ (if a ≠ last then insn.raw.length else 0) + if usePC insn then 13 else 0 := by
  by_cases final : a = last
  · simp only [relocInsn,if_pos final,Option.some.injEq] at made
    simp [← made]
  · simp only [relocInsn,if_neg final,Option.bind_eq_bind,Option.bind_eq_some_iff] at made
    obtain ⟨usePc,path,made⟩ := made
    rw [if_pos final]
    cases usePc with
    | false =>
      obtain rfl : insn.raw = bs := by simpa [relocInsnInternal] using made
      exact Nat.le_add_right _ _
    | true =>
      have length := length_relocInsnInternal made
      have few := growth_le lib a insn p
      rw [if_pos (usePC_of_pcPath path reads)]
      omega

/-- By induction on the instructions: the block and 13 bytes for each that uses the PC. -/
theorem length_relocBlock_le {lib : ArchX86} {insns : List (Word × Instruction)} {last p : Word}
    {moved : List Byte} (made : relocBlock lib insns last p = some moved)
    (reads : ∀ i ∈ insns, (∃ e ∈ i.2.memoryReadOperands ++ i.2.memoryWriteOperands, e.usePC = true) →
      ∃ r ∈ i.2.readSet, r.reg = .rip) :
    moved.length ≤ ((insns.filter (·.1 ≠ last)).map (·.2.raw.length)).sum +
      13 * insns.countP fun i => usePC i.2 := by
  induction insns generalizing p moved with
  | nil =>
    obtain rfl : [] = moved := by simpa [relocBlock] using made
    simp
  | cons i rest ih =>
    obtain ⟨a,insn⟩ := i
    simp only [relocBlock,Option.bind_eq_bind,Option.bind_eq_some_iff,Option.pure_def,
      Option.some.injEq] at made
    obtain ⟨first,one,others,more,rfl⟩ := made
    have head := length_relocInsn_le one (reads (a,insn) List.mem_cons_self)
    have tail := ih more fun j member => reads j (List.mem_cons_of_mem _ member)
    rw [List.length_append,List.countP_cons]
    by_cases final : a ≠ last
    · rw [if_pos final] at head
      rw [List.filter_cons_of_pos (by simpa using final),List.map_cons,List.sum_cons]
      cases uses : usePC insn <;> simp only [uses,Bool.false_eq_true,if_false,if_true] at head ⊢ <;> omega
    · rw [if_neg final] at head
      rw [List.filter_cons_of_neg (by simpa using final)]
      cases uses : usePC insn <;> simp only [uses,Bool.false_eq_true,if_false,if_true] at head ⊢ <;> omega

theorem length_emitCallOrig_le {lib : ArchX86} {src p : Word} {insn : Instruction} {call : List Byte}
    (made : emitCallOrig lib src insn p = some call) : call.length ≤ insn.raw.length + 13 := by
  simp only [emitCallOrig] at made
  cases pc : (insn.controlFlowTarget.map (·.usePC)).getD false with
  | false =>
    obtain rfl : insn.raw = call := by simpa [pc,relocInsnInternal] using made
    exact Nat.le_add_right _ _
  | true =>
    rw [pc] at made
    have length := length_relocInsnInternal made
    have few := growth_le lib src insn p
    omega

theorem length_emitPatch_le {lib : ArchX86} {snip : Snippet} {p : Word} {code : List Byte}
    (made : snip.emitPatch lib p = some code)
    (short : snip.block.origCallInsn.raw.length ≤ maxInstrLength) : code.length ≤ 477 := by
  simp only [Snippet.emitPatch,Option.bind_eq_bind,Option.pure_def,Option.bind_eq_some_iff,
    Option.some.injEq] at made
  obtain ⟨orig,called,rfl⟩ := made
  have around := snip.length_aroundWrapper snip.wrapperEntry snip.entry p
  have back := fun q => snip.length_emitExit q
  have rest : orig.length ≤ 261 := by
    cases callee : snip.func with
    | some func =>
      simp only [Snippet.emitOrig,callee] at called
      split at called
      · split at called
        · obtain rfl := Option.some.inj called
          exact Nat.le_trans (length_emitJumpAbs _ _ _) (by decide)
        · cases called
      · split at called
        · cases called
        · obtain rfl := Option.some.inj called
          have call := length_emitCallAbs func
            (p + BitVec.ofNat 64 (snip.aroundWrapper snip.wrapperEntry snip.entry p).length)
          rw [List.length_append]
          exact Nat.le_trans (Nat.add_le_add call (back _)) (by decide)
    | none =>
      simp only [Snippet.emitOrig,callee,Option.bind_eq_bind,Option.pure_def,Option.bind_eq_some_iff,
        Option.some.injEq] at called
      obtain ⟨call,relocated,rfl⟩ := called
      have copied := length_emitCallOrig_le relocated
      simp only [maxInstrLength] at short
      rw [List.length_append]
      exact Nat.le_trans (Nat.add_le_add (Nat.le_trans copied (Nat.add_le_add_right short 13)) (back _))
        (by decide)
  rw [List.length_append]
  omega

/-- What Dyninst reports about a block: the instructions before the last fill it up to
there, the last one ends it, a memory operand that names the PC has it in the
read set, and the call is no longer than an instruction may be. -/
structure Reported (b : Block) : Prop where
  fills : ((b.code.insns.filter (·.1 ≠ b.last)).map (·.2.raw.length)).sum = (b.last - b.start).toNat
  ends : (b.last - b.start).toNat + b.callSize = b.size
  reads : ∀ i ∈ b.code.insns, (∃ e ∈ i.2.memoryReadOperands ++ i.2.memoryWriteOperands, e.usePC = true) →
    ∃ r ∈ i.2.readSet, r.reg = .rip
  short : b.code.origCallInsn.raw.length ≤ maxInstrLength

def estimateBlobSize (b : Block) (reloc : Bool) : Nat :=
  if reloc then baseEstimateRelocBlockSize b else baseEstimateRelocInsnSize

theorem length_generate_le {c : Config} {pt : Nat} {reloc : Bool} {p : Word} {code : List Byte}
    (reported : Reported (c.blockOf pt)) (generated : (c.snippet pt).generate c.lib reloc p = some code) :
    code.length ≤ estimateBlobSize (c.blockOf pt) reloc := by
  obtain ⟨moved,patch,copied,made,rfl⟩ := generate_eq_some generated
  have patched := length_emitPatch_le made reported.short
  rw [List.length_append]
  cases reloc with
  | false =>
    obtain rfl : [] = moved := by simpa using copied
    simp only [estimateBlobSize,baseEstimateRelocInsnSize,List.length_nil,Bool.false_eq_true,if_false]
    omega
  | true =>
    have block := @length_relocBlock_le c.lib (c.blockOf pt).code.insns (c.blockOf pt).last p moved
      copied reported.reads
    have ends := reported.ends
    rw [reported.fills] at block
    simp only [estimateBlobSize,baseEstimateRelocBlockSize,baseEstimateRelocInsnSize,if_true]
    omega

def ripInsn (raw : List Byte) (disp : Word) : Instruction :=
  let operand := Expression.add (.register .rip) (.immediate disp)
  ⟨raw,true,false,[operand],[],[⟨0,.rip⟩],[],[.dereference operand],some (.dereference operand)⟩

def ripPoint : Config where
  lib := ⟨isDisp32,fun a => a.toNat < 2 ^ 32,fun raw => if raw.head? = some 0x48 then 1 else 0⟩
  obj := {
    loadAddr := 0
    block := fun _ => {
      start := 0x401000
      stop := 0x40100d
      code := {
        insns := [(0x401000,ripInsn [0x48,0x8b,0x05,0,1,0,0] 0x100),
          (0x401007,ripInsn [0xff,0x15,0,2,0,0] 0x200)]
        last := 0x401007
        origCallInsn := ripInsn [0xff,0x15,0,2,0,0] 0x200 }
      isBranch := false
      containsCall := true
      saves := true }
    regions := []
    findBlocks := fun _ _ => [] }
  point := fun _ => ⟨0,none,0x10,0x20,0x30,0x600000,false⟩
  wrapperEntry := 0x7f0000001000
  wrapperExit := 0x7f0000002000
  workers := [.trap]
  sigill := false
  directcallOnly := false
  noTailcall := false

/-- How many bytes a block grows by when it is relocated to `p`. -/
def blockGrowth (lib : ArchX86) (last : Word) : List (Word × Instruction) → Word → Nat
  | [], _ => 0
  | (a,insn) :: rest, p =>
    if a = last then blockGrowth lib last rest p
    else
      let more := if pcPath insn = some true then growth lib a insn p else 0
      more + blockGrowth lib last rest (p + BitVec.ofNat 64 (insn.raw.length + more))

/-- A PC-relative instruction has a ModRM byte and a 32-bit displacement. -/
def Encoded (lib : ArchX86) (b : Block) : Prop :=
  ∀ i ∈ b.code.insns, i.1 ≠ b.last → pcPath i.2 = some true →
    opcodeSize lib i.2.raw + 5 ≤ i.2.raw.length

theorem length_relocInsn {lib : ArchX86} {a last p : Word} {insn : Instruction} {bs : List Byte}
    (made : relocInsn lib a insn last p = some bs) (other : a ≠ last)
    (encoded : pcPath insn = some true → opcodeSize lib insn.raw + 5 ≤ insn.raw.length) :
    bs.length = insn.raw.length + if pcPath insn = some true then growth lib a insn p else 0 := by
  simp only [relocInsn,if_neg other,Option.bind_eq_bind,Option.bind_eq_some_iff] at made
  obtain ⟨usePc,path,made⟩ := made
  cases usePc with
  | false =>
    obtain rfl : insn.raw = bs := by simpa [relocInsnInternal] using made
    simp [path]
  | true =>
    have length := length_relocInsnInternal made
    have long := encoded path
    rw [if_pos path]
    omega

theorem length_relocBlock {lib : ArchX86} {insns : List (Word × Instruction)} {last p : Word}
    {moved : List Byte} (made : relocBlock lib insns last p = some moved)
    (encoded : ∀ i ∈ insns, i.1 ≠ last → pcPath i.2 = some true →
      opcodeSize lib i.2.raw + 5 ≤ i.2.raw.length) :
    moved.length = ((insns.filter (·.1 ≠ last)).map (·.2.raw.length)).sum + blockGrowth lib last insns p := by
  induction insns generalizing p moved with
  | nil =>
    obtain rfl : [] = moved := by simpa [relocBlock] using made
    simp [blockGrowth]
  | cons i rest ih =>
    obtain ⟨a,insn⟩ := i
    simp only [relocBlock,Option.bind_eq_bind,Option.bind_eq_some_iff,Option.pure_def,
      Option.some.injEq] at made
    obtain ⟨first,one,others,more,rfl⟩ := made
    have tail := ih more fun j member => encoded j (List.mem_cons_of_mem _ member)
    rw [List.length_append,tail,blockGrowth]
    by_cases final : a = last
    · rw [relocInsn,if_pos final] at one
      obtain rfl := Option.some.inj one
      rw [if_pos final,List.filter_cons_of_neg (by simpa using final),List.length_nil,
        show BitVec.ofNat 64 0 = 0#64 from rfl,BitVec.add_zero,Nat.zero_add]
    · have head := length_relocInsn one final (encoded (a,insn) List.mem_cons_self final)
      rw [if_neg final,List.filter_cons_of_pos (by simpa using final),List.map_cons,List.sum_cons]
      dsimp only
      rw [← head]
      omega

/-- The length of the jump back from a relocated spring block. -/
def jumpBack (b : Block) (lib : ArchX86) (spring : Word) : Nat :=
  let moved := (b.last - b.start).toNat + blockGrowth lib b.last b.code.insns spring
  if isDisp32 (b.last - (spring + BitVec.ofNat 64 moved + 5)) then 5 else jumpAbsSize

theorem relocateSpring_eq_ok {c : Config} {w w' : World} {pt b : Nat} {malloc : Nat → Word} {spring : Word} :
    relocateSpring c w pt b malloc = .ok (spring,w') ↔
      spring = malloc ((c.obj.block b).size + jumpAbsSize) ∧ spring ≠ 0 ∧
        ∃ code, springCode c b spring = some code ∧
          w' = (World.write {w with freed := fun x => w.freed x && x != spring} spring code).setSnippet pt
            {w.snippet pt with spring := spring,springSize := code.length} := by
  by_cases null : malloc ((c.obj.block b).size + jumpAbsSize) = 0
  · simp only [relocateSpring,if_pos null]
    constructor
    · intro made
      cases made
    · rintro ⟨rfl,there,_⟩
      exact absurd null there
  · cases made : springCode c b (malloc ((c.obj.block b).size + jumpAbsSize)) with
    | none =>
      simp only [relocateSpring,if_neg null,made]
      constructor
      · intro made
        cases made
      · rintro ⟨rfl,_,code,generated,_⟩
        rw [made] at generated
        cases generated
    | some code =>
      simp only [relocateSpring,if_neg null,made,Except.ok.injEq,Prod.mk.injEq]
      constructor
      · rintro ⟨rfl,rfl⟩
        exact ⟨rfl,null,code,made,rfl⟩
      · rintro ⟨rfl,_,code',generated,rfl⟩
        obtain rfl := Option.some.inj (made.symm.trans generated)
        exact ⟨rfl,rfl⟩

theorem length_springCode {c : Config} {b : Nat} {spring : Word} {code : List Byte}
    (reported : Reported (c.obj.block b)) (encoded : Encoded c.lib (c.obj.block b))
    (made : springCode c b spring = some code) :
    code.length + (c.obj.block b).callSize = (c.obj.block b).size +
      blockGrowth c.lib (c.obj.block b).last (c.obj.block b).code.insns spring +
        jumpBack (c.obj.block b) c.lib spring := by
  simp only [springCode,Option.bind_eq_bind,Option.bind_eq_some_iff,Option.pure_def,Option.some.injEq] at made
  obtain ⟨moved,copied,rfl⟩ := made
  have length := length_relocBlock copied encoded
  have ends := reported.ends
  rw [reported.fills] at length
  have back : (emitJumpAbs (c.obj.block b).last (spring + BitVec.ofNat 64 moved.length) false).length =
      jumpBack (c.obj.block b) c.lib spring := by
    simp only [emitJumpAbs,jumpBack,← length,Bool.not_false,Bool.and_true]
    split <;> simp [length_emitPushImm64,jumpAbsSize]
  rw [List.length_append,back]
  omega

/-- The relocated spring block fits its buffer exactly when what its instructions grow by
and the jump back fit into the space of its last instruction and of one long jump. -/
theorem spring_fits_iff (c : Config) (w w' : World) (pt b : Nat) (malloc : Nat → Word) (spring : Word)
    (reported : Reported (c.obj.block b)) (encoded : Encoded c.lib (c.obj.block b))
    (built : relocateSpring c w pt b malloc = .ok (spring,w')) :
    (w'.snippet pt).springSize ≤ (c.obj.block b).size + jumpAbsSize ↔
      blockGrowth c.lib (c.obj.block b).last (c.obj.block b).code.insns spring +
        jumpBack (c.obj.block b) c.lib spring ≤ (c.obj.block b).callSize + jumpAbsSize := by
  obtain ⟨_,_,code,made,rfl⟩ := relocateSpring_eq_ok.mp built
  have length := length_springCode reported encoded made
  rw [setSnippet_self]
  change code.length ≤ _ ↔ _
  omega

def farSpring : Config := {ripPoint with
  obj := {
    loadAddr := 0x7f0000000000
    block := fun b => if b = 0 then
        ⟨0x7f0000402030,0x7f0000402035,⟨[],0x7f0000402030,ripInsn [0xe8,0,0,0,0] 0⟩,false,true,true⟩
      else
        ⟨0x7f0000402000,0x7f0000402024,⟨[(0x7f0000402000,ripInsn [0x48,0x8b,0x05,0,1,0,0] 0x100),
          (0x7f0000402007,ripInsn [0x48,0x8b,0x05,0,1,0,0] 0x100),
          (0x7f000040200e,ripInsn [0x48,0x8b,0x05,0,1,0,0] 0x100),
          (0x7f0000402015,ripInsn [0x48,0x8b,0x05,0,1,0,0] 0x100),
          (0x7f000040201c,ripInsn [0x48,0x8b,0x05,0,1,0,0] 0x100),
          (0x7f0000402023,⟨[0xc3],false,false,[],[],[],[],[],none⟩)],0x7f0000402023,
          ⟨[0xc3],false,false,[],[],[],[],[],none⟩⟩,false,false,true⟩
    regions := [(0x402000,0x402100)]
    findBlocks := fun _ a => if 0x402000 ≤ a ∧ a < 0x402024 then [1] else [] }}

theorem farSpring_reported : Reported (farSpring.obj.block 1) where
  fills := by decide +kernel
  ends := by decide +kernel
  reads := by
    intro i listed uses
    fin_cases listed
    all_goals first
      | exact ⟨⟨0,.rip⟩,List.mem_singleton.mpr rfl,rfl⟩
      | simp at uses
  short := by decide +kernel

def farWorld : World := ⟨fun _ => 0,[],fun _ => false,fun _ => false,fun _ => false,fun _ => .fresh,
  fun _ => none,fun _ => none⟩

/-- The search finds the block, 53 bytes are allocated far from it, 92 are written. -/
theorem farSpring_overruns : (findSpringboard farSpring farWorld 0).1 = some 1 ∧
    ∃ w', relocateSpring farSpring farWorld 0 1 (fun _ => 0x7e0000000000) = .ok (0x7e0000000000,w') ∧
      (w'.snippet 0).springSize = 92 ∧ (farSpring.obj.block 1).size + jumpAbsSize = 53 := by
  obtain ⟨code,made,length⟩ := Option.map_eq_some_iff.mp
    (show (springCode farSpring 1 0x7e0000000000).map List.length = some 92 by decide +kernel)
  refine ⟨by decide +kernel,_,relocateSpring_eq_ok.mpr ⟨rfl,by decide,code,made,rfl⟩,?_,by decide +kernel⟩
  rw [setSnippet_self]
  exact length

theorem spring_fits_iff_farSpring : ∃ w',
    relocateSpring farSpring farWorld 0 1 (fun _ => 0x7f0000500000) = .ok (0x7f0000500000,w') ∧
      (w'.snippet 0).springSize ≤ (farSpring.obj.block 1).size + jumpAbsSize := by
  have makes : (springCode farSpring 1 0x7f0000500000).isSome = true := by decide +kernel
  obtain ⟨code,made⟩ := Option.isSome_iff_exists.mp makes
  obtain ⟨w',built⟩ : ∃ w', relocateSpring farSpring farWorld 0 1 (fun _ => 0x7f0000500000) =
      .ok (0x7f0000500000,w') := ⟨_,relocateSpring_eq_ok.mpr ⟨rfl,by decide,code,made,rfl⟩⟩
  have encoded : Encoded farSpring.lib (farSpring.obj.block 1) := by
    unfold Encoded
    decide +kernel
  exact ⟨w',built,(spring_fits_iff farSpring farWorld w' 0 1 _ _ farSpring_reported encoded built).mpr
    (by decide +kernel)⟩

end Workers

end SelfPropelled
