import SelfPropelled.Relocation
import SelfPropelled.Transfer

/-! Calls and jumps through a RIP-relative pointer, the only indirect transfers
whose relocation rewrites bytes. -/

namespace SelfPropelled
open Machine

/-- Prefixes a near indirect transfer ignores: repeat (also bnd), segment overrides (also notrack). -/
def legacyPrefix (b : Byte) : Bool := b == 0xf2 || b == 0xf3 || ignoredPrefix b

/-- `call *disp(%rip)` or `jmp *disp(%rip)` with its prefixes; at most one from
each of the four legacy groups, then at most one REX. -/
structure RipTransfer where
  legacy : List Byte
  rex : Option (BitVec 4)
  isCall : Bool
  disp : BitVec 32
  known : ∀ b ∈ legacy, legacyPrefix b = true
  few : legacy.length ≤ 4

def RipTransfer.prefixes (i : RipTransfer) : List Byte :=
  i.legacy ++ (i.rex.map fun r => 0x40 ||| r.setWidth 8).toList

def RipTransfer.modRM (i : RipTransfer) : Byte := if i.isCall then 0x15 else 0x25

def RipTransfer.raw (i : RipTransfer) : List Byte :=
  i.prefixes ++ [0xff,i.modRM] ++ toBytes 4 i.disp

def RipTransfer.ctl (i : RipTransfer) (t : Target) : Ctl := if i.isCall then .call t else .jmp t

def RipTransfer.targetAddr (i : RipTransfer) (a : Word) : Word :=
  a + BitVec.ofNat 64 i.raw.length + i.disp.signExtend 64

theorem RipTransfer.length_raw (i : RipTransfer) : i.raw.length = i.prefixes.length + 6 := by
  simp [RipTransfer.raw]

theorem RipTransfer.length_prefixes (i : RipTransfer) : i.prefixes.length ≤ 5 := by
  have few := i.few
  cases rex : i.rex with
  | none => simp [RipTransfer.prefixes,rex]; omega
  | some r => simp [RipTransfer.prefixes,rex]; omega

def repeats (b : Byte) : Bool := b == 0xf2 || b == 0xf3

def RipTransfer.state (i : RipTransfer) : Prefix :=
  let r := i.rex.getD 0
  ⟨false,i.legacy.any repeats,r.getLsbD 3,r.getLsbD 2,r.getLsbD 1,r.getLsbD 0⟩

theorem decodeFrom_legacy (legacy rest : List Byte) (p : Prefix)
    (known : ∀ b ∈ legacy, legacyPrefix b = true) :
    decodeFrom p (legacy ++ rest) =
      (decodeFrom {p with rep := p.rep || legacy.any repeats} rest).map
        fun i => (i.1,legacy.length + i.2) := by
  induction legacy generalizing p with
  | nil => simp
  | cons b bs ih =>
    have here := known b (by simp)
    have later := fun p => ih p fun c member => known c (by simp [member])
    have plain : b ≠ 0x66 := by
      rintro rfl
      exact absurd here (by decide)
    have sum : ∀ n, 1 + (bs.length + n) = (b :: bs).length + n := by
      intro n
      simp only [List.length_cons]
      omega
    rw [List.cons_append,decodeFrom,if_neg plain]
    by_cases rep : b = 0xf2 ∨ b = 0xf3
    · have marked : repeats b = true := by simpa [repeats] using rep
      rw [if_pos rep,later,Option.map_map]
      simp [marked,Function.comp_def,sum]
    · have unmarked : repeats b = false := by simpa [repeats] using rep
      have ignored : ignoredPrefix b = true := by
        simp only [legacyPrefix,Bool.or_eq_true,beq_iff_eq] at here
        exact here.resolve_left rep
      rw [if_neg rep,if_pos ignored,later,Option.map_map]
      simp [unmarked,Function.comp_def,sum]

theorem RipTransfer.decode_prefixes (i : RipTransfer) (m : Byte) (rest : List Byte) :
    decode (i.prefixes ++ 0xff :: m :: rest) =
      (decodeGroup5 i.state (m :: rest)).map fun j => (j.1,i.prefixes.length + j.2) := by
  have group : ∀ p : Prefix, p.opSize = false → ∀ bs, decodeOpcode p (0xff :: bs) = decodeGroup5 p bs := by
    rintro ⟨opSize,rep,w,r,x,b⟩ plain bs
    cases plain
    rfl
  cases rex : i.rex with
  | none =>
    have whole : i.prefixes = i.legacy := by simp [RipTransfer.prefixes,rex]
    rw [whole,decode,decodeFrom_legacy _ _ _ i.known]
    have state : i.state = {Prefix.none with rep := false || i.legacy.any repeats} := by
      simp [RipTransfer.state,rex,Prefix.none]
    have go : ∀ p : Prefix, p.opSize = false →
        decodeFrom p (0xff :: m :: rest) = decodeOpcode p (0xff :: m :: rest) := fun _ _ => rfl
    rw [go _ rfl,group _ rfl,state]
    rfl
  | some r =>
    have whole : i.prefixes = i.legacy ++ [0x40 ||| r.setWidth 8] := by simp [RipTransfer.prefixes,rex]
    have byte : ∀ r : BitVec 4, (0x40 ||| r.setWidth 8 : Byte) ≠ 0x66 ∧
        ¬((0x40 ||| r.setWidth 8 : Byte) = 0xf2 ∨ (0x40 ||| r.setWidth 8 : Byte) = 0xf3) ∧
        ignoredPrefix (0x40 ||| r.setWidth 8) = false ∧ (0x40 ||| r.setWidth 8 : Byte).toNat / 16 = 4 ∧
        (∀ k < 4, (0x40 ||| r.setWidth 8 : Byte).getLsbD k = r.getLsbD k) := by decide
    obtain ⟨notOp,notRep,notSeg,isRex,bits⟩ := byte r
    rw [whole,List.append_assoc,decode,decodeFrom_legacy _ _ _ i.known,List.singleton_append,decodeFrom,
      if_neg notOp,if_neg notRep,if_neg (Bool.eq_false_iff.mp notSeg),decodeRex,if_pos isRex,group _ rfl]
    have state : i.state = ⟨false,false || i.legacy.any repeats,r.getLsbD 3,r.getLsbD 2,r.getLsbD 1,
        r.getLsbD 0⟩ := by
      simp [RipTransfer.state,rex]
    rw [state,bits 0 (by decide),bits 1 (by decide),bits 2 (by decide),bits 3 (by decide)]
    simp [Prefix.none,Option.map_map,Function.comp_def,Nat.add_assoc]

private theorem encodes_group (i : RipTransfer) (m : Byte) (tail : List Byte) (t : Target)
    (short : tail.length ≤ 8) (group : ∀ rest, decodeGroup5 i.state (m :: (tail ++ rest)) =
      some (.ctl (i.ctl t),2 + tail.length)) :
    Encodes (.ctl (i.ctl t)) (i.prefixes ++ [0xff,m] ++ tail) := by
  refine ⟨?_,fun rest => ?_⟩
  · have bound := i.length_prefixes
    simp only [List.length_append,List.length_cons,List.length_nil,maxInstrLength]
    omega
  · have joined : i.prefixes ++ [0xff,m] ++ tail ++ rest = i.prefixes ++ 0xff :: m :: (tail ++ rest) := by simp
    have size : (i.prefixes ++ [0xff,m] ++ tail).length = i.prefixes.length + (2 + tail.length) := by
      simp only [List.length_append,List.length_cons,List.length_nil]
      omega
    rw [joined,i.decode_prefixes,group,Option.map_some,size]

theorem RipTransfer.encodes_disp (i : RipTransfer) (d : BitVec 32) :
    Encodes (.ctl (i.ctl (.ripMem (d.signExtend 64)))) (i.prefixes ++ [0xff,i.modRM] ++ toBytes 4 d) := by
  refine encodes_group i i.modRM (toBytes 4 d) _ (by simp) fun rest => ?_
  have disp : disp32 (toBytes 4 d ++ rest) = some (d.signExtend 64) := by
    rw [disp32,immediate_toBytes 4 _ rest (by decide),Option.map_some]
  have form : ∀ bs, decodeModRM i.state (i.modRM :: bs) =
      (disp32 bs).map fun d => (if i.isCall then 2 else 4,.rip d,5) := by
    intro bs
    cases call : i.isCall <;> simp [RipTransfer.modRM,call,decodeModRM]
  rw [decodeGroup5,form,disp]
  cases call : i.isCall <;> simp [RipTransfer.ctl,call,RM.target]

theorem RipTransfer.encodes_abs (i : RipTransfer) (d : BitVec 32) :
    Encodes (.ctl (i.ctl (.mem ⟨none,if i.state.x then some (.r12,0) else none,d.signExtend 64⟩)))
      (i.prefixes ++ [0xff,(i.modRM &&& 0xf8) + 4] ++ 0x25 :: toBytes 4 d) := by
  refine encodes_group i _ (0x25 :: toBytes 4 d) _ (by simp) fun rest => ?_
  have disp : disp32 (toBytes 4 d ++ rest) = some (d.signExtend 64) := by
    rw [disp32,immediate_toBytes 4 _ rest (by decide),Option.map_some]
  have form : ∀ bs, decodeModRM i.state (((i.modRM &&& 0xf8) + 4) :: 0x25 :: bs) =
      (disp32 bs).map fun d => (if i.isCall then 2 else 4,
        .mem ⟨none,if i.state.x then some (.r12,0) else none,d⟩,6) := by
    intro bs
    cases call : i.isCall <;> cases x : i.state.x <;>
      simp [RipTransfer.modRM,call,decodeModRM,decodeSib,extend,Reg.numbered,x,Function.comp_def]
  rw [decodeGroup5,List.cons_append,form,disp]
  cases call : i.isCall <;> simp [RipTransfer.ctl,call,RM.target]

theorem RipTransfer.encodes_far (i : RipTransfer) :
    Encodes (.ctl (i.ctl (.mem ⟨some (if i.state.b then .r8 else .rax),none,0⟩)))
      (i.prefixes ++ [0xff,i.modRM &&& 0xf8]) := by
  have enc := encodes_group i (i.modRM &&& 0xf8) []
    (.mem ⟨some (if i.state.b then .r8 else .rax),none,0⟩) (by decide) fun rest => by
      have form : ∀ bs, decodeModRM i.state ((i.modRM &&& 0xf8) :: bs) =
          some (if i.isCall then 2 else 4,.mem ⟨some (if i.state.b then .r8 else .rax),none,0⟩,1) := by
        intro bs
        cases call : i.isCall <;> cases b : i.state.b <;>
          simp [RipTransfer.modRM,call,decodeModRM,displacement,extend,Reg.numbered,b]
      rw [decodeGroup5,form]
      cases call : i.isCall <;> simp [RipTransfer.ctl,call,RM.target]
  simpa using enc

/-- What InstructionAPI reports about the instruction: the pointer's address is
its only memory operand that names the PC, and its control-flow target does too. -/
structure Decoded (i : RipTransfer) (insn : Instruction) : Prop where
  raw : insn.raw = i.raw
  operand : ∃ e ∈ insn.memoryReadOperands ++ insn.memoryWriteOperands, e.usePC = true
  value : ∀ e ∈ insn.memoryReadOperands ++ insn.memoryWriteOperands, e.usePC = true →
    ∀ pc, e.eval pc = some (pc + i.disp.signExtend 64)
  target : ∃ e, insn.controlFlowTarget = some e ∧ e.usePC = true

theorem getTargetAddr_rip {i : RipTransfer} {insn : Instruction} (decoded : Decoded i insn)
    (a : Word) : getTargetAddr a insn = some (some (i.targetAddr a)) := by
  rw [getTargetAddr_memory decoded.operand decoded.value,decoded.raw]
  rfl

/-- The three forms of the relocated instruction. -/
inductive RelocatedTo (lib : ArchX86) (i : RipTransfer) (a p : Word) : List Byte → Prop
  | disp (near : lib.isDisp32 (i.targetAddr a - p + BitVec.ofNat 64 i.raw.length) = true) :
      RelocatedTo lib i a p (i.prefixes ++ [0xff,i.modRM] ++
        toBytes 4 ((i.targetAddr a - p - BitVec.ofNat 64 i.raw.length).setWidth 32))
  | abs (notNear : lib.isDisp32 (i.targetAddr a - p + BitVec.ofNat 64 i.raw.length) = false)
      (low : lib.isAddr32 (i.targetAddr a) = true) :
      RelocatedTo lib i a p (i.prefixes ++ [0xff,(i.modRM &&& 0xf8) + 4] ++
        0x25 :: toBytes 4 ((i.targetAddr a).setWidth 32))
  | far (notNear : lib.isDisp32 (i.targetAddr a - p + BitVec.ofNat 64 i.raw.length) = false)
      (high : lib.isAddr32 (i.targetAddr a) = false) :
      RelocatedTo lib i a p ([0x50] ++ ([0x48,0xb8] ++ toBytes 8 (i.targetAddr a)) ++
        (i.prefixes ++ [0xff,i.modRM &&& 0xf8]) ++ [0x58])

theorem emitCallOrig_rip {lib : ArchX86} {i : RipTransfer} {insn : Instruction}
    (decoded : Decoded i insn) (counts : lib.countPrefixes i.raw = i.prefixes.length) (a p : Word) :
    ∃ bytes, emitCallOrig lib a insn p = some bytes ∧ RelocatedTo lib i a p bytes := by
  obtain ⟨e,target,uses⟩ := decoded.target
  have start : opcodeSize lib i.raw = i.prefixes.length + 1 := by
    have head : i.raw.getD i.prefixes.length 0 = 0xff := by simp [RipTransfer.raw]
    simp only [opcodeSize,counts,head]
    rfl
  have opcode : i.raw.take (i.prefixes.length + 1) = i.prefixes ++ [0xff] := by
    simp [RipTransfer.raw,List.take_append]
  have modRM : i.raw.getD (i.prefixes.length + 1) 0 = i.modRM := by
    simp [RipTransfer.raw]
  have rest : i.raw.drop (i.prefixes.length + 1 + 5) = [] := by
    rw [List.drop_eq_nil_iff,i.length_raw]
  have pointer : i.modRM &&& 0x38 ≠ 0 := by
    cases call : i.isCall <;> simp [RipTransfer.modRM,call]
  simp only [emitCallOrig,target,Option.map_some,uses,Option.getD_some,relocInsnInternal,if_true,
    getTargetAddr_rip decoded,decoded.raw,start,opcode,modRM,rest,Option.bind_eq_bind,Option.bind_some,
    if_pos pointer]
  cases near : lib.isDisp32 (i.targetAddr a - p + BitVec.ofNat 64 i.raw.length) with
  | true => exact ⟨_,by simp,.disp near⟩
  | false =>
    cases low : lib.isAddr32 (i.targetAddr a) with
    | true => exact ⟨_,by simp,.abs near low⟩
    | false => exact ⟨_,by simp [emitPushReg64,emitMovImmToReg64,emitPopReg64,emitRex],.far near low⟩

def RipTransfer.original (i : RipTransfer) (a : Word) (s : State) : State :=
  (i.ctl (.ripMem (i.disp.signExtend 64))).apply (a + BitVec.ofNat 64 i.raw.length) s

theorem RipTransfer.original_enters (i : RipTransfer) {code : Memory} {a : Word} {s : State}
    (held : CodeAt code a i.raw) : Enters code (s.at a) (i.original a s) := by
  have enters := Enters.transfer (s.at a) _ _ (held.decode_fetch (i.encodes_disp i.disp))
  simpa [RipTransfer.original] using enters

/-- The callee finds the same machine, but for the return address of a call:
entry point, argument registers, alignment and the stack above. -/
structure SameEntry (isCall : Bool) (t u : State) : Prop where
  rip : u.rip = t.rip
  args : ∀ r ∈ savedRegs, u.reg r = t.reg r
  align : (u.reg .rsp).toNat % 16 = (t.reg .rsp).toNat % 16
  stack : ∀ k, (if isCall then 8 else 0) ≤ k → k < 2 ^ 64 →
    u.mem (u.reg .rsp + BitVec.ofNat 64 k) = t.mem (t.reg .rsp + BitVec.ofNat 64 k)

theorem RipTransfer.sameEntry (i : RipTransfer) {t t' : Target} {next next' : Word} {s : State}
    (same : t'.resolve next' s = t.resolve next s) :
    SameEntry i.isCall ((i.ctl t).apply next s) ((i.ctl t').apply next' s) := by
  cases call : i.isCall with
  | false => exact ⟨by simpa [RipTransfer.ctl,call,Ctl.apply] using same,by simp [RipTransfer.ctl,call,Ctl.apply],
      by simp [RipTransfer.ctl,call,Ctl.apply],by simp [RipTransfer.ctl,call,Ctl.apply]⟩
  | true =>
    refine ⟨by simpa [RipTransfer.ctl,call,Ctl.apply] using same,by simp [RipTransfer.ctl,call,Ctl.apply],
      by simp [RipTransfer.ctl,call,Ctl.apply],fun k above small => ?_⟩
    have outside : ¬In (s.reg .rsp - 8) 8 (s.reg .rsp - 8 + BitVec.ofNat 64 k) := by
      simp only [In,if_true] at above ⊢
      bv_omega
    have kept := fun v : Word => sameOutside_store s.mem (s.reg .rsp - 8) v _ outside
    simp only [RipTransfer.ctl,call,if_true,Ctl.apply,State.set_reg]
    rw [kept next',kept next]

/-- The code emitted for the call enters the callee as the original instruction
does, and after the callee of a call has returned it falls through with %rax
and %rsp as they were left. -/
def CallRelocated (lib : ArchX86) (i : RipTransfer) (insn : Instruction) (a p : Word) : Prop :=
  ∃ bytes, emitCallOrig lib a insn p = some bytes ∧
    ∀ (code : Memory) (s : State), CodeAt code p bytes → s.rip = p →
      ∃ u, Enters code s u ∧ SameEntry i.isCall (i.original a s) u ∧
        (i.isCall = true → ∀ q : State, q.rip = load 64 u.mem (u.reg .rsp) →
          q.reg .rsp = u.reg .rsp + 8 → ∃ r, Falls code q r ∧
            r.rip = p + BitVec.ofNat 64 bytes.length ∧ r.reg .rax = q.reg .rax ∧
            r.reg .rsp = q.reg .rsp)

/-- The placements whose rewritten instruction reads the original pointer: the
displacement the code writes fits where the displacement it tests was taken for
near, or the absolute address survives sign extension and no REX.X turns the
SIB byte's index on. -/
def PointerKept (lib : ArchX86) (i : RipTransfer) (a p : Word) : Prop :=
  let newDisp := i.targetAddr a - p
  let insnSz := BitVec.ofNat 64 i.raw.length
  (lib.isDisp32 (newDisp + insnSz) = true ∧ Fits32 (newDisp - insnSz)) ∨
  (lib.isDisp32 (newDisp + insnSz) = false ∧ lib.isAddr32 (i.targetAddr a) = true ∧
    Fits32 (i.targetAddr a) ∧ i.state.x = false)

instance (lib : ArchX86) (i : RipTransfer) (a p : Word) : Decidable (PointerKept lib i a p) :=
  inferInstanceAs (Decidable (_ ∨ _))

theorem signExtend_setWidth_far {d : Word} (wide : ¬Fits32 d) (b : Word) :
    Apart (b + d) 8 (b + (d.setWidth 32).signExtend 64) 8 := by
  have moved : (d.setWidth 32).signExtend 64 ≠ d := mt (signExtend_setWidth_iff d).mp wide
  have low : ((d.setWidth 32).signExtend 64).toNat % 2 ^ 32 = d.toNat % 2 ^ 32 := by
    rw [BitVec.toNat_signExtend]
    simp only [BitVec.toNat_setWidth]
    split <;> omega
  generalize (d.setWidth 32).signExtend 64 = e at moved low ⊢
  have differ : e.toNat ≠ d.toNat := fun same => moved (BitVec.eq_of_toNat_eq same)
  intro x first second
  simp only [In] at first second
  bv_omega

theorem exists_load_ne {a b : Word} (apart : Apart a 8 b 8) :
    ∃ m : Memory, load 64 m a ≠ load 64 m b := by
  refine ⟨store (fun _ => 0) a (1 : Word),?_⟩
  rw [load_store _ _ _ (by decide) (by decide),
    load_frame (sameOutside_store (fun _ => 0) a (1 : Word)) apart (by decide)]
  have zero : load 64 (fun _ => 0) b = 0 := by simp [load,bytesAt,ofBytes]
  rw [zero]
  decide

theorem RipTransfer.ctl_rip (i : RipTransfer) (t : Target) (next : Word) (s : State) :
    ((i.ctl t).apply next s).rip = t.resolve next s := by
  cases call : i.isCall <;> simp [RipTransfer.ctl,call,Ctl.apply]

theorem RipTransfer.original_rip (i : RipTransfer) (a : Word) (s : State) :
    (i.original a s).rip = load 64 s.mem (i.targetAddr a) := i.ctl_rip _ _ s

private theorem callRelocated_of_resolve {lib : ArchX86} {i : RipTransfer} {insn : Instruction}
    {a p : Word} {bytes : List Byte} {t : Target} (made : emitCallOrig lib a insn p = some bytes)
    (enc : Encodes (.ctl (i.ctl t)) bytes)
    (same : ∀ s : State, t.resolve (p + BitVec.ofNat 64 bytes.length) s = load 64 s.mem (i.targetAddr a)) :
    CallRelocated lib i insn a p := by
  refine ⟨bytes,made,fun code s held here => ?_⟩
  subst here
  refine ⟨_,.transfer s _ _ (held.decode_fetch enc),i.sameEntry (same s),fun call q back up => ?_⟩
  refine ⟨q,.refl q,?_,rfl,rfl⟩
  rw [back]
  simpa [RipTransfer.ctl,call,Ctl.apply] using
    load_store s.mem (s.reg .rsp - 8) (s.rip + BitVec.ofNat 64 bytes.length) (by decide) (by decide)

theorem PointerKept.relocated {lib : ArchX86} {i : RipTransfer} {insn : Instruction}
    {a p : Word} (kept : PointerKept lib i a p) (decoded : Decoded i insn)
    (counts : lib.countPrefixes i.raw = i.prefixes.length) : CallRelocated lib i insn a p := by
  obtain ⟨bytes,made,form⟩ := emitCallOrig_rip decoded counts a p
  cases form with
  | disp near =>
    refine callRelocated_of_resolve made (i.encodes_disp _) fun s => ?_
    rcases kept with ⟨_,fits⟩ | ⟨notNear,_⟩
    · have size : (i.prefixes ++ [0xff,i.modRM] ++ toBytes 4 ((i.targetAddr a - p -
          BitVec.ofNat 64 i.raw.length).setWidth 32)).length = i.raw.length := by simp [i.length_raw]
      rw [Target.resolve,(signExtend_setWidth_iff _).mpr fits,size]
      congr 1
      bv_omega
    · rw [near] at notNear
      cases notNear
  | abs notNear low =>
    refine callRelocated_of_resolve made (i.encodes_abs _) fun s => ?_
    rcases kept with ⟨near,_⟩ | ⟨_,_,fits,noIndex⟩
    · rw [notNear] at near
      cases near
    · rw [Target.resolve,(signExtend_setWidth_iff _).mpr fits]
      simp [MemRef.addr,noIndex]
  | far notNear high =>
    rcases kept with ⟨near,_⟩ | ⟨_,low,_⟩
    · rw [notNear] at near
      cases near
    · rw [high] at low
      cases low

theorem CallRelocated.entry {lib : ArchX86} {i : RipTransfer} {insn : Instruction} {a p : Word}
    {bytes : List Byte} (good : CallRelocated lib i insn a p)
    (made : emitCallOrig lib a insn p = some bytes) (small : bytes.length ≤ 2 ^ 64)
    {s u : State} (here : s.rip = p) (enters : Enters (imageOf p bytes) s u) :
    SameEntry i.isCall (i.original a s) u := by
  obtain ⟨_,other,run⟩ := good
  obtain rfl := Option.some.inj (made.symm.trans other)
  obtain ⟨v,reached,same,_⟩ := run (imageOf p bytes) s (codeAt_imageOf p bytes small) here
  rwa [enters.unique reached]

def stateWith (reg : Reg → Word) (m : Memory) (p : Word) : State :=
  ⟨reg,fun _ => 0,⟨false,false,false,false,false,false⟩,m,p⟩

private theorem not_callRelocated_of_apart {lib : ArchX86} {i : RipTransfer} {insn : Instruction}
    {a p : Word} {bytes : List Byte} {t : Target} (addr : Word) (reg : Reg → Word)
    (made : emitCallOrig lib a insn p = some bytes) (enc : Encodes (.ctl (i.ctl t)) bytes)
    (reads : ∀ m, t.resolve (p + BitVec.ofNat 64 bytes.length) (stateWith reg m p) = load 64 m addr)
    (apart : Apart (i.targetAddr a) 8 addr 8) : ¬CallRelocated lib i insn a p := by
  intro good
  obtain ⟨m,differ⟩ := exists_load_ne apart
  have small : bytes.length ≤ 2 ^ 64 := Nat.le_trans enc.short (by decide)
  have held := codeAt_imageOf p bytes small
  have enters : Enters (imageOf p bytes) (stateWith reg m p)
      ((i.ctl t).apply (p + BitVec.ofNat 64 bytes.length) (stateWith reg m p)) :=
    .transfer _ _ _ (CodeAt.decode_fetch held enc)
  have same := (good.entry made small rfl enters).rip
  rw [i.ctl_rip,i.original_rip] at same
  exact differ ((reads m).symm.trans same).symm

theorem CallRelocated.kept {lib : ArchX86} {i : RipTransfer} {insn : Instruction} {a p : Word}
    (good : CallRelocated lib i insn a p) (decoded : Decoded i insn)
    (counts : lib.countPrefixes i.raw = i.prefixes.length) : PointerKept lib i a p := by
  obtain ⟨bytes,made,form⟩ := emitCallOrig_rip decoded counts a p
  cases form with
  | disp near =>
    refine .inl ⟨near,Classical.byContradiction fun wide => ?_⟩
    refine not_callRelocated_of_apart _ (fun _ => 0) made (i.encodes_disp _) (fun _ => rfl) ?_ good
    have size : (i.prefixes ++ [0xff,i.modRM] ++ toBytes 4 ((i.targetAddr a - p -
        BitVec.ofNat 64 i.raw.length).setWidth 32)).length = i.raw.length := by simp [i.length_raw]
    have far := signExtend_setWidth_far wide (p + BitVec.ofNat 64 i.raw.length)
    have trg : p + BitVec.ofNat 64 i.raw.length + (i.targetAddr a - p - BitVec.ofNat 64 i.raw.length) =
        i.targetAddr a := by bv_omega
    rw [trg] at far
    change Apart (i.targetAddr a) 8 (p + BitVec.ofNat 64 _ + _) 8
    rw [size]
    exact far
  | abs notNear low =>
    let e := ((i.targetAddr a).setWidth 32).signExtend 64
    refine .inr ⟨notNear,low,Classical.byContradiction fun wide => ?_,
      Bool.eq_false_iff.mpr fun index => ?_⟩
    · refine not_callRelocated_of_apart e (fun _ => 0) made (i.encodes_abs _) (fun m => ?_) ?_ good
      · cases i.state.x <;> simp [Target.resolve,MemRef.addr,stateWith,e]
      · simpa [e] using signExtend_setWidth_far wide 0
    · refine not_callRelocated_of_apart (i.targetAddr a + BitVec.ofNat 64 16)
        (fun _ => i.targetAddr a - e + 16) made (i.encodes_abs _) (fun m => ?_) ?_ good
      · have sum : i.targetAddr a - e + 16 + e = i.targetAddr a + BitVec.ofNat 64 16 := by bv_omega
        simp only [Target.resolve,MemRef.addr,stateWith,index,if_true,BitVec.shiftLeft_zero]
        rw [← sum]
        simp [e]
      · simpa using apart_shift (i.targetAddr a) (i := 0) (n := 8) (j := 16) (k := 8) (by decide) (by decide)
  | far notNear high =>
    exfalso
    let trg := i.targetAddr a
    let s := stateWith (fun _ => trg + 1) (fun _ => 0) p
    have asm : Assembles [.push .rax,.movImm .rax trg] ([0x50] ++ ([0x48,0xb8] ++ toBytes 8 trg)) :=
      .cons [0x50] (encodes_push .rax) (.one (encodes_movImm trg fun _ => rfl))
    have prefixes := i.length_prefixes
    have small : ([0x50] ++ ([0x48,0xb8] ++ toBytes 8 trg) ++ (i.prefixes ++ [0xff,i.modRM &&& 0xf8]) ++
        [0x58]).length ≤ 2 ^ 64 := by
      simp only [List.length_append,List.length_cons,List.length_nil,length_toBytes]
      omega
    obtain ⟨t,run⟩ : ∃ t, applyOps [.push .rax,.movImm .rax trg] s = some t := ⟨_,rfl⟩
    have enters := Enters.straight asm i.encodes_far
      (CodeAt.left (codeAt_imageOf p _ small)) run
    have same := (good.entry made small rfl enters).args .rax (by decide)
    have loaded : t.reg .rax = trg := by
      cases run
      simp
    have left : ((i.ctl (.mem ⟨some (if i.state.b then .r8 else .rax),none,0⟩)).apply
        (s.rip + BitVec.ofNat 64 (([0x50] ++ ([0x48,0xb8] ++ toBytes 8 trg)).length +
          (i.prefixes ++ [0xff,i.modRM &&& 0xf8]).length)) t).reg .rax = trg := by
      cases call : i.isCall <;> simp [RipTransfer.ctl,call,Ctl.apply,loaded]
    have right : (i.original a s).reg .rax = trg + 1 := by
      cases call : i.isCall <;> simp [RipTransfer.original,RipTransfer.ctl,call,Ctl.apply,s,stateWith]
    rw [left,right] at same
    bv_omega

/-- Indirect call relocation: the emitted sequence is as good as the original
instruction exactly where the rewritten instruction keeps the pointer. -/
theorem emitCallOrig_relocated_iff (lib : ArchX86) (i : RipTransfer) (insn : Instruction) (a p : Word)
    (decoded : Decoded i insn) (counts : lib.countPrefixes i.raw = i.prefixes.length) :
    CallRelocated lib i insn a p ↔ PointerKept lib i a p :=
  ⟨fun good => good.kept decoded counts,fun kept => kept.relocated decoded counts⟩

/-- The library's predicates: a signed and an unsigned 32-bit range, and the prefix bytes. -/
def archX86 : ArchX86 where
  isDisp32 d := decide (Fits32 d)
  isAddr32 a := decide (a.toNat < 2 ^ 32)
  countPrefixes raw := (raw.takeWhile fun b => legacyPrefix b || b.toNat / 16 = 4).length

def pltCall : RipTransfer := ⟨[],none,true,0x2000,by simp,by decide⟩

def pltCallInsn : Instruction where
  raw := pltCall.raw
  readsMemory := true
  writesMemory := true
  memoryReadOperands := [.add (.register .rip) (.immediate 0x2000)]
  memoryWriteOperands := [.add (.register (.other 4)) (.immediate (-8))]
  readSet := [⟨1,.rip⟩,⟨2,.other 4⟩]
  accessSet := [⟨1,.rip⟩,⟨2,.other 4⟩,⟨3,.rip⟩,⟨4,.other 4⟩]
  operands := [.dereference (.add (.register .rip) (.immediate 0x2000))]
  controlFlowTarget := some (.dereference (.add (.register .rip) (.immediate 0x2000)))

theorem pltCall_decoded : Decoded pltCall pltCallInsn where
  raw := rfl
  operand := ⟨.add (.register .rip) (.immediate 0x2000),by decide,rfl⟩
  value := by
    intro e listed uses pc
    simp only [pltCallInsn,List.cons_append,List.nil_append,List.mem_cons,List.not_mem_nil,or_false] at listed
    rcases listed with rfl | rfl
    · rfl
    · cases uses
  target := ⟨_,rfl,rfl⟩

theorem emitCallOrig_relocated_pltCall : CallRelocated archX86 pltCall pltCallInsn 0x401000 0x403000 :=
  (emitCallOrig_relocated_iff archX86 pltCall pltCallInsn 0x401000 0x403000 pltCall_decoded
    (by decide)).mpr (by decide)

/-- A library call whose blob lies 4 GB away loses %rax. -/
theorem emitCallOrig_far_pltCall : Decoded pltCall pltCallInsn ∧
    archX86.countPrefixes pltCall.raw = pltCall.prefixes.length ∧
    ¬CallRelocated archX86 pltCall pltCallInsn 0x7f0000001000 0x403000 :=
  ⟨pltCall_decoded,by decide,fun good => absurd (good.kept pltCall_decoded (by decide)) (by decide)⟩

end SelfPropelled
