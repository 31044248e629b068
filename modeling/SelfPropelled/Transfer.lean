import SelfPropelled.ContextSwitch

/-! What the emitted calls and jumps do: parameters in registers, near and far
forms of a call, and the far jump that pushes its target and returns to it. -/

namespace SelfPropelled
open Machine

def passParamOps (point payload : Word) : List Op :=
  .movImm .rdi point :: if payload ≠ 0 then [.movImm .rsi payload] else []

theorem emitPassParam_assembles (point payload : Word) :
    Assembles (passParamOps point payload) (emitPassParam point payload) := by
  refine .cons (emitMovImm64Rdi point) (encodes_movImm point fun _ => rfl) ?_
  split
  · exact .one (encodes_movImm payload fun _ => rfl)
  · exact .nil

/-- The effect of passing the parameters. -/
structure Passed (point payload : Word) (s t : State) : Prop where
  rdi : t.reg .rdi = point
  rsi : payload ≠ 0 → t.reg .rsi = payload
  others : ∀ r, r ≠ .rdi → r ≠ .rsi → t.reg r = s.reg r
  mem : t.mem = s.mem

theorem passParam_spec (point payload : Word) (s : State) :
    ∃ t, applyOps (passParamOps point payload) s = some t ∧ Passed point payload s t := by
  by_cases given : payload ≠ 0
  · refine ⟨(s.set .rdi point).set .rsi payload,?_,?_,fun _ => ?_,fun r notDi notSi => ?_,rfl⟩
    · rw [passParamOps,if_pos given]
      rfl
    · simp
    · simp
    · simp [notDi,notSi]
  · refine ⟨s.set .rdi point,?_,?_,fun other => absurd other given,fun r notDi _ => ?_,rfl⟩
    · rw [passParamOps,if_neg given]
      rfl
    · simp
    · simp [notDi]

theorem signExtend_disp32 (d : Word) (fits : isDisp32 d = true) :
    (d.setWidth 32).signExtend 64 = d := by
  simp only [isDisp32,Bool.and_eq_true,decide_eq_true_eq] at fits
  apply BitVec.eq_of_toInt_eq
  rw [BitVec.toInt_signExtend_of_le (by decide),BitVec.toInt_setWidth]
  rw [BitVec.toInt_eq_toNat_cond] at *
  have bound := d.isLt
  rw [Int.bmod]
  split at fits
  · split <;> omega
  · split <;> omega

private theorem encodes_rel32 {opcode : Byte} {c : Target → Ctl} (d : BitVec 32)
    (form : ∀ bs, decode (opcode :: bs) = (disp32 bs).map fun d => (.ctl (c (.rel d)),5)) :
    Encodes (.ctl (c (.rel (d.signExtend 64)))) (opcode :: toBytes 4 d) := by
  refine ⟨by simp [maxInstrLength],fun rest => ?_⟩
  rw [List.cons_append,form,disp32,immediate_toBytes 4 _ rest (by decide),Option.map_some]
  simp

theorem encodes_jmpCut (d : BitVec 32) :
    Encodes (.ctl (.jmp (.rel (d.signExtend 64)))) (0xe9 :: toBytes 4 d) :=
  encodes_rel32 d fun _ => rfl

theorem encodes_callRel (d : Word) (fits : isDisp32 d = true) :
    Encodes (.ctl (.call (.rel d))) (0xe8 :: toBytes 4 (d.setWidth 32)) := by
  have cut : Encodes (.ctl (.call (.rel ((d.setWidth 32).signExtend 64)))) (0xe8 :: toBytes 4 (d.setWidth 32)) :=
    encodes_rel32 _ fun _ => rfl
  rwa [signExtend_disp32 d fits] at cut

theorem encodes_jmpRel (d : Word) (fits : isDisp32 d = true) :
    Encodes (.ctl (.jmp (.rel d))) (0xe9 :: toBytes 4 (d.setWidth 32)) := by
  have cut := encodes_jmpCut (d.setWidth 32)
  rwa [signExtend_disp32 d fits] at cut

theorem encodes_callR11 : Encodes (.ctl (.call (.reg .r11))) [0x41,0xff,0xd3] :=
  ⟨by decide,fun _ => rfl⟩

theorem encodes_ret : Encodes (.ctl .ret) [0xc3] := ⟨by decide,fun _ => rfl⟩

/-- The word that push number `i` of an emulated 64-bit push writes. -/
def pushWord (imm : Word) (i : Nat) : BitVec 16 := (imm.sshiftRight (16 * i) &&& 0xffff).setWidth 16

def pushImm64Ops (imm : Word) : List Op := [3,2,1,0].map fun i => .pushImm16 (pushWord imm i)

theorem encodes_pushImm16 (v : BitVec 16) : Encodes (.op (.pushImm16 v)) ([0x66,0x68] ++ toBytes 2 v) := by
  refine ⟨by simp [maxInstrLength],fun rest => ?_⟩
  have form : ∀ bs, decode (0x66 :: 0x68 :: bs) = ((immediate 2 16 bs).map fun v =>
      (Instr.op (.pushImm16 v),3)).map fun i => (i.1,1 + i.2) := fun _ => rfl
  simp only [List.cons_append,List.nil_append,form,immediate_toBytes 2 v rest (by decide),
    Option.map_some,List.length_cons,length_toBytes]

theorem emitPushImm64_assembles (imm : Word) : Assembles (pushImm64Ops imm) (emitPushImm64 imm) :=
  .flatMap _ _ _ fun _ _ => encodes_pushImm16 _

theorem getLsbD_pushWord (imm : Word) (i j : Nat) (few : i < 4) (inside : j < 16) :
    (pushWord imm i).getLsbD j = imm.getLsbD (16 * i + j) := by
  have mask : ∀ j < 16, (0xffff : Word).getLsbD j = true := by decide
  have bound : 16 * i + j < 64 := by omega
  have word : j < 64 := by omega
  have inner : ¬64 ≤ j := by omega
  simp only [pushWord,BitVec.getLsbD_setWidth,BitVec.getLsbD_and,mask j inside,
    BitVec.getLsbD_sshiftRight,bound,inside,inner]
  simp

theorem byte_pushWord (imm : Word) (i k : Nat) (few : i < 4) (half : k < 2) :
    (pushWord imm i >>> (8 * k)).setWidth 8 = (imm >>> (16 * i + 8 * k)).setWidth 8 := by
  apply BitVec.eq_of_getLsbD_eq
  intro j inside
  rw [BitVec.getLsbD_setWidth,BitVec.getLsbD_setWidth,BitVec.getLsbD_ushiftRight,
    BitVec.getLsbD_ushiftRight,getLsbD_pushWord imm i (8 * k + j) few (by omega),Nat.add_assoc]

theorem toBytes_pushWords (imm : Word) :
    toBytes 2 (pushWord imm 0) ++ (toBytes 2 (pushWord imm 1) ++ (toBytes 2 (pushWord imm 2) ++
      toBytes 2 (pushWord imm 3))) = toBytes 8 imm := by
  have zero := fun i few => byte_pushWord imm i 0 few (by decide)
  have one := fun i few => byte_pushWord imm i 1 few (by decide)
  simp only [Nat.mul_zero,BitVec.ushiftRight_zero,Nat.mul_one,Nat.add_zero] at zero one
  simp only [toBytes,List.cons_append,List.nil_append,zero 0 (by decide),zero 1 (by decide),
    zero 2 (by decide),zero 3 (by decide),one 0 (by decide),one 1 (by decide),one 2 (by decide),
    one 3 (by decide)]
  simp [← BitVec.shiftRight_add]

private theorem store_pushWords (m : Memory) (sp imm : Word) :
    store (store (store (store m (sp - 2) (pushWord imm 3)) (sp - 4) (pushWord imm 2))
      (sp - 6) (pushWord imm 1)) (sp - 8) (pushWord imm 0) = store m (sp - 8) imm := by
  have two : sp - 2 = sp - 4 + BitVec.ofNat 64 2 := by bv_omega
  have four : sp - 4 = sp - 6 + BitVec.ofNat 64 2 := by bv_omega
  have six : sp - 6 = sp - 8 + BitVec.ofNat 64 2 := by bv_omega
  have length : ∀ i, (toBytes 2 (pushWord imm i)).length = 2 := fun i => length_toBytes _ _
  change storeBytes (storeBytes (storeBytes (storeBytes m (sp - 2) (toBytes 2 (pushWord imm 3)))
    (sp - 4) (toBytes 2 (pushWord imm 2))) (sp - 6) (toBytes 2 (pushWord imm 1)))
    (sp - 8) (toBytes 2 (pushWord imm 0)) = storeBytes m (sp - 8) (toBytes 8 imm)
  rw [storeBytes_append 2 2 (length 2) (length 3) two (by decide),
    storeBytes_append 2 4 (length 1) (by simp) four (by decide),
    storeBytes_append 2 6 (length 0) (by simp) six (by decide),toBytes_pushWords]

theorem applyOps_pushImm64 (imm : Word) (s : State) : applyOps (pushImm64Ops imm) s =
    some {s.set .rsp (s.reg .rsp - 8) with mem := store s.mem (s.reg .rsp - 8) imm} := by
  let onStack (sp : Word) (m : Memory) : State := {s.set .rsp sp with mem := m}
  have push : ∀ sp m v, (Op.pushImm16 v).apply (onStack sp m) =
      some (onStack (sp - 2) (store m (sp - 2) v)) := by
    intro sp m v
    have moved : (onStack sp m).reg .rsp = sp := by simp [onStack]
    have again : (onStack sp m).set .rsp (sp - 2) = onStack (sp - 2) m := by
      simp only [onStack]
      rw [← State.set_set s .rsp sp (sp - 2)]
      rfl
    rw [Op.apply,moved,again]
  have start : s = onStack (s.reg .rsp) s.mem := by
    have same : (fun q => if q = Reg.rsp then s.reg .rsp else s.reg q) = s.reg := by
      funext q
      split
      · rename_i sp
        rw [sp]
      · rfl
    simp only [onStack,State.set,same]
  have four : ∀ sp : Word, sp - 2 - 2 = sp - 4 := by intro sp; bv_omega
  have six : ∀ sp : Word, sp - 4 - 2 = sp - 6 := by intro sp; bv_omega
  have eight : ∀ sp : Word, sp - 6 - 2 = sp - 8 := by intro sp; bv_omega
  conv_lhs => rw [start]
  simp only [pushImm64Ops,List.map_cons,List.map_nil]
  rw [applyOps_cons,push,Option.bind_some,applyOps_cons,push,Option.bind_some,four,
    applyOps_cons,push,Option.bind_some,six,applyOps_cons,push,Option.bind_some,eight,
    applyOps_nil,store_pushWords]

structure Called (callee ret : Word) (s t : State) : Prop where
  rip : t.rip = callee
  rsp : t.reg .rsp = s.reg .rsp - 8
  others : ∀ r, r ≠ .rsp → r ≠ .r11 → t.reg r = s.reg r
  xmm : t.xmm = s.xmm
  flags : t.flags = s.flags
  returns : load 64 t.mem (t.reg .rsp) = ret
  frame : SameOutside (s.reg .rsp - 8) 8 s.mem t.mem

theorem called_apply (t : Target) (next : Word) (s : State) (callee : Word)
    (leads : t.resolve next s = callee) : Called callee next s ((Ctl.call t).apply next s) where
  rip := leads
  rsp := by simp [Ctl.apply]
  others := fun r notSp _ => by simp [Ctl.apply,notSp]
  xmm := rfl
  flags := rfl
  returns := by simpa [Ctl.apply] using load_store s.mem (s.reg .rsp - 8) next (by decide) (by decide)
  frame := sameOutside_store s.mem (s.reg .rsp - 8) next

theorem emitCallAbs_enters {code : Memory} {s t : State} {os : List Op} {bs : List Byte}
    {callee : Word} (asm : Assembles os bs) (done : applyOps os s = some t)
    (held : CodeAt code s.rip (bs ++ emitCallAbs callee (s.rip + BitVec.ofNat 64 bs.length))) :
    ∃ u, Enters code s u ∧ Called callee (s.rip + BitVec.ofNat 64
      (bs ++ emitCallAbs callee (s.rip + BitVec.ofNat 64 bs.length)).length) t u := by
  simp only [emitCallAbs] at held ⊢
  split at held
  next near =>
    rw [if_pos near]
    have enters := Enters.straight asm (encodes_callRel _ near) held done
    refine ⟨_,enters,?_⟩
    rw [List.length_append]
    refine called_apply _ _ t callee ?_
    simp only [Target.resolve,List.length_cons,length_toBytes]
    rw [BitVec.ofNat_add]
    bv_omega
  next far =>
    rw [if_neg far]
    let u := t.set .r11 callee
    have wide : Assembles (os ++ [.movImm .r11 callee]) (bs ++ ([0x49,0xbb] ++ toBytes 8 callee)) :=
      asm.append (.one (encodes_movImm callee fun _ => rfl))
    have run : applyOps (os ++ [.movImm .r11 callee]) s = some u := by
      rw [applyOps_append,done]
      rfl
    have enters := Enters.straight wide encodes_callR11 (by simpa using held) run
    have length : (bs ++ ([0x49,0xbb] ++ toBytes 8 callee ++ [0x41,0xff,0xd3])).length =
        (bs ++ ([0x49,0xbb] ++ toBytes 8 callee)).length + ([0x41,0xff,0xd3] : List Byte).length := by simp
    rw [length]
    have called := called_apply (.reg .r11) (s.rip + BitVec.ofNat 64
      ((bs ++ ([0x49,0xbb] ++ toBytes 8 callee)).length + ([0x41,0xff,0xd3] : List Byte).length)) u callee
      (by simp [Target.resolve,u])
    refine ⟨_,enters,called.rip,by simpa [u] using called.rsp,?_,called.xmm,called.flags,
      called.returns,by simpa [u] using called.frame⟩
    intro r notSp not11
    rw [called.others r notSp not11]
    simp [u,not11]

structure Jumped (trg : Word) (s t : State) : Prop where
  rip : t.rip = trg
  reg : t.reg = s.reg
  xmm : t.xmm = s.xmm
  flags : t.flags = s.flags
  frame : SameOutside (s.reg .rsp - 8) 8 s.mem t.mem

theorem emitJumpAbs_enters {code : Memory} {s t : State} {os : List Op} {bs : List Byte}
    {trg : Word} {abs : Bool} (asm : Assembles os bs) (done : applyOps os s = some t)
    (held : CodeAt code s.rip (bs ++ emitJumpAbs trg (s.rip + BitVec.ofNat 64 bs.length) abs)) :
    ∃ u, Enters code s u ∧ Jumped trg t u := by
  simp only [emitJumpAbs] at held
  split at held
  next near =>
    have fits := (Bool.and_eq_true_iff.mp near).1
    refine ⟨_,Enters.straight asm (encodes_jmpRel _ fits) held done,?_,rfl,rfl,rfl,.refl _ _ _⟩
    simp only [Ctl.apply,Target.resolve,List.length_cons,length_toBytes]
    rw [BitVec.ofNat_add]
    bv_omega
  next far =>
    let u : State := {t.set .rsp (t.reg .rsp - 8) with mem := store t.mem (t.reg .rsp - 8) trg}
    have run : applyOps (os ++ pushImm64Ops trg) s = some u := by
      rw [applyOps_append,done,Option.bind_some,applyOps_pushImm64]
    have enters := Enters.straight (asm.append (emitPushImm64_assembles trg)) encodes_ret
      (by simpa using held) run
    have back : load 64 u.mem (u.reg .rsp) = trg := by
      simpa [u] using load_store t.mem (t.reg .rsp - 8) trg (by decide) (by decide)
    refine ⟨_,enters,back,?_,rfl,rfl,sameOutside_store t.mem (t.reg .rsp - 8) trg⟩
    funext r
    by_cases sp : r = .rsp
    · simp [Ctl.apply,u,sp]
    · simp [Ctl.apply,u,sp]

theorem length_emitPushImm64 (imm : Word) : (emitPushImm64 imm).length = 16 := by
  simp [emitPushImm64]

theorem length_emitJumpAbs (trg p : Word) (abs : Bool) : (emitJumpAbs trg p abs).length ≤ jumpAbsSize := by
  simp only [emitJumpAbs,jumpAbsSize]
  split <;> simp [length_emitPushImm64]

theorem length_emitCallAbs (callee p : Word) : (emitCallAbs callee p).length ≤ 13 := by
  simp only [emitCallAbs]
  split <;> simp

/-- Absolute transfers are exact: near or far, the emitted jump enters its target with
every register and flag as it was, and the emitted call enters its callee with
the address behind it pushed and at most %r11 changed. -/
theorem absolute_transfers (trg p : Word) (abs : Bool) :
    (∀ code s, s.rip = p → CodeAt code p (emitJumpAbs trg p abs) → ∃ t, Enters code s t ∧ Jumped trg s t) ∧
    (∀ code s, s.rip = p → CodeAt code p (emitCallAbs trg p) → ∃ t, Enters code s t ∧
      Called trg (p + BitVec.ofNat 64 (emitCallAbs trg p).length) s t) ∧
    (emitJumpAbs trg p abs).length ≤ jumpAbsSize ∧ (emitCallAbs trg p).length ≤ 13 := by
  refine ⟨fun code s here held => ?_,fun code s here held => ?_,length_emitJumpAbs trg p abs,
    length_emitCallAbs trg p⟩
  · subst here
    exact emitJumpAbs_enters .nil rfl (by simpa using held)
  · subst here
    simpa using emitCallAbs_enters .nil rfl (by simpa using held)

/-- A far target whose upper words have their top bits set. -/
theorem absolute_transfers_far : ∃ t, Enters (imageOf 0x403000 (emitJumpAbs 0xffff8000ffff8000 0x403000 false))
    ⟨fun _ => 0x7fffffffe000,fun _ => 0,⟨false,false,false,false,false,false⟩,fun _ => 0,0x403000⟩ t ∧
      t.rip = 0xffff8000ffff8000 := by
  have held := codeAt_imageOf 0x403000 (emitJumpAbs 0xffff8000ffff8000 0x403000 false)
    (Nat.le_trans (length_emitJumpAbs _ _ _) (by decide))
  obtain ⟨t,enters,jumped⟩ := (absolute_transfers 0xffff8000ffff8000 0x403000 false).1 _
    ⟨fun _ => 0x7fffffffe000,fun _ => 0,⟨false,false,false,false,false,false⟩,fun _ => 0,0x403000⟩ rfl held
  exact ⟨t,enters,jumped.rip⟩

end SelfPropelled
