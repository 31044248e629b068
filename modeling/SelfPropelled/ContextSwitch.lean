import SelfPropelled.CodeGen
import SelfPropelled.Machine.Stack

/-! What the emitted code does: the assembly behind each emitter, the context the
save sequence leaves on the stack, and its restoration. -/

namespace SelfPropelled
open Machine

def savedRegs : List Reg := [.rdi,.rsi,.rdx,.rcx,.r8,.r9,.rax]

def indirectRegs (indirect : Bool) : List Reg :=
  if indirect then [.r10,.r11,.rbx,.r12,.r13,.r14,.r15,.rbp] else []

/-- How far the save sequence moves the stack pointer down for the XMM area. -/
def xmmRoom (isTailCall : Bool) : Nat := if !isTailCall then 0x88 else 0x90

def flagOps : List Op := [.lahf,.setoAl]

def saveSpOps (loc : Word) : List Op := [.movImm .rax loc,.movStore ⟨some .rax,none,0⟩ .rsp]

def indexOps : List Op := [.movReg .rax .rsp,.addRax 8]

def saveFpOps (isTailCall : Bool) : List Op :=
  [.lea .rsp ⟨some .rsp,none,-BitVec.ofNat 64 (xmmRoom isTailCall)⟩] ++ indexOps ++ xmmStores .rax 8 ++ [.push .rax]

def restoreFpOps (isTailCall : Bool) : List Op :=
  [.pop .rax] ++ indexOps ++ xmmLoads .rax 8 ++
    [.lea .rsp ⟨some .rsp,none,BitVec.ofNat 64 (xmmRoom isTailCall)⟩]

def saveOps (indirect isTailCall : Bool) (loc : Word) : List Op :=
  savedRegs.map .push ++ flagOps ++ [.push .rax] ++ saveSpOps loc ++
    (indirectRegs indirect).map .push ++ saveFpOps isTailCall

def restoreOps (indirect isTailCall : Bool) : List Op :=
  restoreFpOps isTailCall ++ (indirectRegs indirect).reverse.map .pop ++ [.pop .rax] ++
    [.addAl 0x7f,.sahf] ++ savedRegs.reverse.map .pop

def pushBytes (opcode : Byte) : Reg → List Byte
  | .rax => [opcode] | .rcx => [opcode + 1] | .rdx => [opcode + 2] | .rbx => [opcode + 3]
  | .rsp => [opcode + 4] | .rbp => [opcode + 5] | .rsi => [opcode + 6] | .rdi => [opcode + 7]
  | .r8 => [0x41,opcode] | .r9 => [0x41,opcode + 1] | .r10 => [0x41,opcode + 2]
  | .r11 => [0x41,opcode + 3] | .r12 => [0x41,opcode + 4] | .r13 => [0x41,opcode + 5]
  | .r14 => [0x41,opcode + 6] | .r15 => [0x41,opcode + 7]

theorem encodes_push (r : Reg) : Encodes (.op (.push r)) (pushBytes 0x50 r) := by
  cases r <;> exact ⟨by decide,fun _ => rfl⟩

theorem encodes_pop (r : Reg) : Encodes (.op (.pop r)) (pushBytes 0x58 r) := by
  cases r <;> exact ⟨by decide,fun _ => rfl⟩

theorem assembles_push (rs : List Reg) : Assembles (rs.map .push) (rs.flatMap (pushBytes 0x50)) :=
  .flatMap rs .push _ fun r _ => encodes_push r

theorem assembles_pop (rs : List Reg) : Assembles (rs.map .pop) (rs.flatMap (pushBytes 0x58)) :=
  .flatMap rs .pop _ fun r _ => encodes_pop r

theorem encodes_movImm {rex op : Byte} {r : Reg} (v : Word)
    (form : ∀ bs : List Byte, decode (rex :: op :: bs) =
      ((immediate 8 64 bs).map fun v => (Instr.op (.movImm r v),9)).map fun i => (i.1,1 + i.2)) :
    Encodes (.op (.movImm r v)) ([rex,op] ++ toBytes 8 v) := by
  refine ⟨by simp [maxInstrLength],fun rest => ?_⟩
  have read := form (toBytes 8 v ++ rest)
  rw [immediate_toBytes 8 v rest (by decide)] at read
  simpa using read

theorem flagOps_assembles : Assembles flagOps [0x9f,0x0f,0x90,0xc0] :=
  .cons [0x9f] ⟨by decide,fun _ => rfl⟩ (.one ⟨by decide,fun _ => rfl⟩)

theorem emitSaveSp_assembles (loc : Word) : Assembles (saveSpOps loc) (emitSaveSp loc) :=
  .cons ([0x48,0xb8] ++ toBytes 8 loc) (encodes_movImm loc fun _ => rfl)
    (.one ⟨by decide,fun _ => rfl⟩)

theorem indexOps_assembles : Assembles indexOps ([0x48,0x8b,0xc4] ++ [0x48,0x05,0x08,0x00,0x00,0x00]) :=
  .cons [0x48,0x8b,0xc4] ⟨by decide,fun _ => rfl⟩ (.one ⟨by decide,fun _ => rfl⟩)

theorem emitXMMRegsSave_assembles : Assembles (xmmStores .rax 8) (emitXMMRegsSaveRestore false) := by
  refine .flatMap _ _ _ fun i inside => ?_
  have bound := List.mem_range.mp inside
  interval_cases i <;> exact ⟨by decide,fun _ => rfl⟩

theorem emitXMMRegsRestore_assembles : Assembles (xmmLoads .rax 8) (emitXMMRegsSaveRestore true) := by
  refine .flatMap _ _ _ fun i inside => ?_
  have bound := List.mem_range.mp inside
  interval_cases i <;> exact ⟨by decide,fun _ => rfl⟩

theorem emitSaveFpRegisters_assembles (isTailCall : Bool) :
    Assembles (saveFpOps isTailCall) (emitSaveFpRegisters isTailCall) := by
  have lea : Assembles [.lea .rsp ⟨some .rsp,none,-BitVec.ofNat 64 (xmmRoom isTailCall)⟩]
      (if !isTailCall then [0x48,0x8d,0xa4,0x24,0x78,0xff,0xff,0xff]
        else [0x48,0x8d,0xa4,0x24,0x70,0xff,0xff,0xff]) := by
    cases isTailCall <;> exact .one ⟨by decide,fun _ => rfl⟩
  have push : Assembles [.push .rax] [0x50] := assembles_push [.rax]
  have all := ((lea.append indexOps_assembles).append emitXMMRegsSave_assembles).append push
  simpa only [emitSaveFpRegisters,saveFpOps,List.append_assoc] using all

theorem emitRestoreFpRegisters_assembles (isTailCall : Bool) :
    Assembles (restoreFpOps isTailCall) (emitRestoreFpRegisters isTailCall) := by
  have lea : Assembles [.lea .rsp ⟨some .rsp,none,BitVec.ofNat 64 (xmmRoom isTailCall)⟩]
      (if !isTailCall then [0x48,0x8d,0xa4,0x24,0x88,0x00,0x00,0x00]
        else [0x48,0x8d,0xa4,0x24,0x90,0x00,0x00,0x00]) := by
    cases isTailCall <;> exact .one ⟨by decide,fun _ => rfl⟩
  have pop : Assembles [.pop .rax] [0x58] := assembles_pop [.rax]
  have all := ((pop.append indexOps_assembles).append emitXMMRegsRestore_assembles).append lea
  simpa only [emitRestoreFpRegisters,restoreFpOps,List.append_assoc] using all

theorem emitSave_assembles (indirect isTailCall : Bool) (loc : Word) :
    Assembles (saveOps indirect isTailCall loc) (emitSave indirect isTailCall loc) := by
  have more : Assembles ((indirectRegs indirect).map .push)
      (if indirect then [0x41,0x52,0x41,0x53,0x53,0x41,0x54,0x41,0x55,0x41,0x56,0x41,0x57,0x55] else []) := by
    cases indirect <;> exact assembles_push _
  have all := (((((assembles_push savedRegs).append flagOps_assembles).append
    (assembles_push [.rax])).append (emitSaveSp_assembles loc)).append more).append
    (emitSaveFpRegisters_assembles isTailCall)
  exact all

theorem emitRestore_assembles (indirect isTailCall : Bool) :
    Assembles (restoreOps indirect isTailCall) (emitRestore indirect isTailCall) := by
  have more : Assembles ((indirectRegs indirect).reverse.map .pop)
      (if indirect then [0x5d,0x41,0x5f,0x41,0x5e,0x41,0x5d,0x41,0x5c,0x5b,0x41,0x5b,0x41,0x5a] else []) := by
    cases indirect <;> exact assembles_pop _
  have flags : Assembles [.addAl 0x7f,.sahf] [0x80,0xc0,0x7f,0x9e] :=
    .cons [0x80,0xc0,0x7f] ⟨by decide,fun _ => rfl⟩ (.one ⟨by decide,fun _ => rfl⟩)
  have all := ((((emitRestoreFpRegisters_assembles isTailCall).append more).append
    (assembles_pop [.rax])).append flags).append (assembles_pop savedRegs.reverse)
  exact all

/-- What the second push of %rax saves: the accumulator with the flags in its two low bytes. -/
def flagWord (s : State) : Word :=
  withAl (withAh (s.reg .rax) s.flags.toByte) (BitVec.setWidth 8 (BitVec.ofBool s.flags.of))

theorem applyOps_flagOps (s : State) : applyOps flagOps s = some (s.set .rax (flagWord s)) := by
  simp only [flagOps,applyOps_cons,applyOps_nil,Op.apply,Option.bind_some,State.set_set,State.set_flags]
  simp [flagWord]

/-- The words of the save area, from the lowest address up. -/
def savedWords (indirect : Bool) (s : State) : List Word :=
  (indirectRegs indirect).reverse.map s.reg ++ flagWord s :: savedRegs.reverse.map s.reg

def wordsSize (indirect : Bool) : Nat := 8 * (8 + (indirectRegs indirect).length)

def contextSize (indirect isTailCall : Bool) : Nat := wordsSize indirect + xmmRoom isTailCall + 8

theorem length_savedWords (indirect : Bool) (s : State) :
    8 * (savedWords indirect s).length = wordsSize indirect := by
  cases indirect <;> simp [savedWords,wordsSize,indirectRegs,savedRegs]

theorem wordsSize_le (indirect : Bool) : 64 ≤ wordsSize indirect ∧ wordsSize indirect ≤ 128 := by
  cases indirect <;> decide

theorem xmmRoom_le (isTailCall : Bool) : 0x88 ≤ xmmRoom isTailCall ∧ xmmRoom isTailCall ≤ 0x90 := by
  cases isTailCall <;> decide

theorem contextSize_le (indirect isTailCall : Bool) : contextSize indirect isTailCall ≤ 280 := by
  have words := wordsSize_le indirect
  have room := xmmRoom_le isTailCall
  simp only [contextSize]
  omega

/-- The effect of the pushes before the stack pointer is stored. -/
structure SavedFlagged (s t : State) : Prop where
  rsp : s.reg .rsp = t.reg .rsp + 64
  others : ∀ r, r ≠ .rsp → r ≠ .rax → t.reg r = s.reg r
  xmm : t.xmm = s.xmm
  words : WordsAt t.mem (t.reg .rsp) (flagWord s :: savedRegs.reverse.map s.reg)
  frame : SameOutside (t.reg .rsp) 64 s.mem t.mem

theorem saveFlagged_spec (s : State) :
    ∃ t, applyOps (savedRegs.map .push ++ flagOps ++ [.push .rax]) s = some t ∧
      SavedFlagged s t := by
  obtain ⟨u,first,p⟩ := applyOps_push savedRegs [] s (by decide) trivial (by decide)
  have flag : flagWord u = flagWord s := by
    simp only [flagWord,p.flags,p.others .rax (by decide)]
  obtain ⟨t,last,q⟩ := applyOps_push [.rax] (savedRegs.reverse.map s.reg ++ [])
    (u.set .rax (flagWord u)) (by decide) (by simpa using p.words) (by simp [savedRegs])
  have up : u.reg .rsp = t.reg .rsp + 8 := by
    have down := q.rsp
    simp only [State.set_reg] at down
    rw [down]
    simp
  have top : s.reg .rsp = t.reg .rsp + 64 := by
    have down : u.reg .rsp = s.reg .rsp - 56 := p.rsp
    rw [← BitVec.sub_add_cancel (s.reg .rsp) 56,← down,up]
    exact add_ofNat _ 8 56
  refine ⟨t,?_,top,?_,q.xmm.trans p.xmm,?_,?_⟩
  · have one : applyOps [.push .rax] (u.set .rax (flagWord u)) = some t := last
    rw [applyOps_append,applyOps_append,first,Option.bind_some,applyOps_flagOps,Option.bind_some,one]
  · intro r notSp notAx
    rw [q.others r notSp,State.set_reg,if_neg notAx,p.others r notSp]
  · have held := q.words
    simpa [flag] using held
  · refine (p.frame.mono fun x inside => ?_).trans (q.frame.mono fun x inside => ?_)
    · rw [up] at inside
      exact inside.shift (k := 8) (by decide) (by decide)
    · exact inside.widen (by decide)

/-- The general registers and the flags saved on the stack, with the stack
pointer of that moment written to the snippet. -/
structure SavedGeneral (indirect : Bool) (loc : Word) (s t : State) : Prop where
  rsp : s.reg .rsp = t.reg .rsp + BitVec.ofNat 64 (wordsSize indirect)
  others : ∀ r, r ≠ .rsp → r ≠ .rax → t.reg r = s.reg r
  xmm : t.xmm = s.xmm
  words : WordsAt t.mem (t.reg .rsp) (savedWords indirect s)
  location : load 64 t.mem loc = s.reg .rsp - 64
  frame : ∀ x, ¬In (t.reg .rsp) (wordsSize indirect) x → ¬In loc 8 x → t.mem x = s.mem x

theorem applyOps_saveSpOps (loc : Word) (s : State) : applyOps (saveSpOps loc) s =
    some {s.set .rax loc with mem := store s.mem loc (s.reg .rsp)} := by
  simp [saveSpOps,Op.apply,MemRef.addr]

theorem saveGeneral_spec (indirect : Bool) (loc : Word) (s : State)
    (apart : Apart (s.reg .rsp - BitVec.ofNat 64 (wordsSize indirect)) (wordsSize indirect) loc 8) :
    ∃ t, applyOps (savedRegs.map .push ++ flagOps ++ [.push .rax] ++ saveSpOps loc ++
        (indirectRegs indirect).map .push) s = some t ∧ SavedGeneral indirect loc s t := by
  have size : wordsSize indirect = 8 * (indirectRegs indirect).length + 64 := by
    simp only [wordsSize]; omega
  have bound := wordsSize_le indirect
  obtain ⟨u,first,p⟩ := saveFlagged_spec s
  let v : State := {u.set .rax loc with mem := store u.mem loc (u.reg .rsp)}
  have stored : SameOutside loc 8 u.mem v.mem := sameOutside_store u.mem loc (u.reg .rsp)
  have still : v.reg .rsp = u.reg .rsp := by simp [v]
  have base : u.reg .rsp = (s.reg .rsp - BitVec.ofNat 64 (wordsSize indirect)) +
      BitVec.ofNat 64 (8 * (indirectRegs indirect).length) := by
    rw [p.rsp,size,BitVec.ofNat_add]
    bv_omega
  have words : WordsAt v.mem (v.reg .rsp) (flagWord s :: savedRegs.reverse.map s.reg) := by
    rw [still]
    refine p.words.congr (by simp [savedRegs]) fun x inside => stored x fun other => ?_
    have wide : In (u.reg .rsp) 64 x := inside.widen (by simp [savedRegs])
    rw [base] at wide
    exact apart x (wide.shift (by omega) (by omega)) other
  obtain ⟨t,last,q⟩ := applyOps_push (indirectRegs indirect) _ v
    (by cases indirect <;> decide) words (by cases indirect <;> simp [indirectRegs,savedRegs])
  have low : t.reg .rsp = s.reg .rsp - BitVec.ofNat 64 (wordsSize indirect) := by
    rw [q.rsp,still,base,BitVec.add_sub_cancel]
  have untouched : ∀ r, r ≠ .rsp → r ≠ .rax → v.reg r = s.reg r := by
    intro r notSp notAx
    simpa [v,notAx] using p.others r notSp notAx
  refine ⟨t,?_,?_,?_,?_,?_,?_,?_⟩
  · rw [applyOps_append,applyOps_append,first,Option.bind_some,applyOps_saveSpOps,Option.bind_some]
    exact last
  · rw [low,BitVec.sub_add_cancel]
  · intro r notSp notAx
    rw [q.others r notSp,untouched r notSp notAx]
  · rw [q.xmm]
    exact p.xmm
  · have values : (indirectRegs indirect).reverse.map v.reg =
        (indirectRegs indirect).reverse.map s.reg := by
      apply List.map_congr_left
      intro r member
      have listed := List.mem_reverse.mp member
      refine untouched r ?_ ?_ <;> rintro rfl <;> cases indirect <;> exact absurd listed (by decide)
    simpa only [values,savedWords] using q.words
  · have kept : load 64 t.mem loc = load 64 v.mem loc := by
      refine load_frame q.frame (apart.mono (fun x inside => ?_) fun _ other => other) (by decide)
      rw [low] at inside
      exact inside.widen (by omega)
    rw [kept,p.rsp]
    have written := load_store u.mem loc (u.reg .rsp) (by decide) (by decide)
    simpa [v] using written
  · intro x outside away
    rw [low] at outside
    rw [q.frame x fun inside => outside ?_,stored x away,p.frame x fun inside => outside ?_]
    · rw [base] at inside
      exact inside.shift (by omega) (by omega)
    · rw [low] at inside
      exact inside.widen (by omega)

structure SavedFp (isTailCall : Bool) (s t : State) : Prop where
  rsp : s.reg .rsp = t.reg .rsp + BitVec.ofNat 64 (xmmRoom isTailCall + 8)
  others : ∀ r, r ≠ .rsp → r ≠ .rax → t.reg r = s.reg r
  xmm : t.xmm = s.xmm
  area : XmmAt t.mem (t.reg .rsp + 16) 8 s.xmm
  frame : SameOutside (t.reg .rsp) (xmmRoom isTailCall + 8) s.mem t.mem

theorem applyOps_indexOps (s : State) : applyOps indexOps s =
    some {s.set .rax (s.reg .rsp + 8) with flags := Flags.ofAdd (s.reg .rsp) 8} := by
  simp only [indexOps,applyOps_cons,applyOps_nil,Op.apply,Option.bind_some,State.set_reg,if_true,
    State.set_set]

theorem saveFp_spec (isTailCall : Bool) (s : State)
    (aligned : (s.reg .rsp - BitVec.ofNat 64 (xmmRoom isTailCall) + 8).toNat % 16 = 0) :
    ∃ t, applyOps (saveFpOps isTailCall) s = some t ∧ SavedFp isTailCall s t := by
  have room := xmmRoom_le isTailCall
  let low : Word := s.reg .rsp - BitVec.ofNat 64 (xmmRoom isTailCall)
  let u : State := {(s.set .rsp low).set .rax (low + 8) with flags := Flags.ofAdd low 8}
  have index : applyOps indexOps (s.set .rsp low) = some u := applyOps_indexOps _
  have still : u.reg .rax = low + 8 := by simp [u]
  obtain ⟨m,stores,held,frame⟩ := applyOps_xmmStores .rax 8 u (by decide) (by rwa [still])
  let t : State := {u.set .rsp (low - 8) with mem := store m (low - 8) (low + 8)}
  have up : s.reg .rsp = low - 8 + BitVec.ofNat 64 (xmmRoom isTailCall + 8) := by
    simp only [low]
    rw [BitVec.ofNat_add]
    bv_omega
  have start : low + 8 = low - 8 + BitVec.ofNat 64 16 := by bv_omega
  have pushed : SameOutside (low - 8) 8 m t.mem := sameOutside_store m (low - 8) (low + 8)
  rw [still,start] at frame
  refine ⟨t,?_,?_,?_,?_,?_,?_⟩
  · have lea : (Op.lea .rsp ⟨some .rsp,none,-BitVec.ofNat 64 (xmmRoom isTailCall)⟩).apply s =
        some (s.set .rsp low) := by
      simp [Op.apply,MemRef.addr,low,BitVec.sub_eq_add_neg]
    have push : (Op.push .rax).apply {u with mem := m} = some t := by
      simp [Op.apply,t,u]
      rfl
    rw [saveFpOps,applyOps_append,applyOps_append,applyOps_append,applyOps_cons,lea,Option.bind_some,
      applyOps_nil,Option.bind_some,index,Option.bind_some,stores,Option.bind_some,applyOps_cons,push,
      Option.bind_some,applyOps_nil]
  · simpa [t] using up
  · intro r notSp notAx
    simp [t,u,notSp,notAx]
  · rfl
  · have area : t.reg .rsp + 16 = low - 8 + BitVec.ofNat 64 16 := by simp [t]
    rw [area]
    rw [still,start] at held
    refine held.congr (by decide) (pushed.apart ?_)
    simpa using apart_shift (low - 8) (i := 0) (n := 8) (j := 16) (k := 16 * 8) (by decide) (by decide)
  · have bottom : t.reg .rsp = low - 8 := by simp [t]
    rw [bottom]
    refine (frame.mono fun x inside => ?_).trans (pushed.mono fun x inside => ?_)
    · exact inside.shift (by omega) (by omega)
    · exact inside.widen (by omega)

/-- The context of one state lies in memory at a stack pointer. -/
structure ContextAt (indirect isTailCall : Bool) (s : State) (m : Memory) (sp : Word) : Prop where
  aligned : sp.toNat % 16 = 0
  area : XmmAt m (sp + 16) 8 s.xmm
  words : WordsAt m (sp + BitVec.ofNat 64 (xmmRoom isTailCall + 8)) (savedWords indirect s)

theorem ContextAt.congr {indirect isTailCall : Bool} {s : State} {m m' : Memory} {sp : Word}
    (held : ContextAt indirect isTailCall s m sp)
    (same : ∀ x, In sp (contextSize indirect isTailCall) x → m' x = m x) :
    ContextAt indirect isTailCall s m' sp := by
  have words := wordsSize_le indirect
  have room := xmmRoom_le isTailCall
  have length := length_savedWords indirect s
  refine ⟨held.aligned,held.area.congr (by decide) fun x inside => same x ?_,
    held.words.congr (by omega) fun x inside => same x ?_⟩
  · exact inside.shift (k := 16) (by simp only [contextSize]; omega) (by simp only [contextSize]; omega)
  · rw [length] at inside
    exact inside.shift (by simp only [contextSize]; omega) (by simp only [contextSize]; omega)

structure Saved (indirect isTailCall : Bool) (loc : Word) (s t : State) : Prop where
  rsp : s.reg .rsp = t.reg .rsp + BitVec.ofNat 64 (contextSize indirect isTailCall)
  others : ∀ r, r ≠ .rsp → r ≠ .rax → t.reg r = s.reg r
  xmm : t.xmm = s.xmm
  context : ContextAt indirect isTailCall s t.mem (t.reg .rsp)
  location : load 64 t.mem loc = s.reg .rsp - 64
  frame : ∀ x, ¬In (t.reg .rsp) (contextSize indirect isTailCall) x → ¬In loc 8 x →
    t.mem x = s.mem x

/-- The stack alignment the save sequence needs at a call point. -/
def AlignedFor (isTailCall : Bool) (sp : Word) : Prop :=
  sp.toNat % 16 = if isTailCall then 8 else 0

theorem AlignedFor.area {isTailCall : Bool} {sp : Word} (aligned : AlignedFor isTailCall sp)
    (indirect : Bool) : (sp - BitVec.ofNat 64 (wordsSize indirect) -
      BitVec.ofNat 64 (xmmRoom isTailCall) + 8).toNat % 16 = 0 := by
  cases indirect <;> cases isTailCall <;>
    simp only [AlignedFor,wordsSize,indirectRegs,xmmRoom,Bool.false_eq_true,if_false,if_true,
      List.length_cons,List.length_nil,Bool.not_true,Bool.not_false] at * <;> bv_omega

/-- The save sequence keeps every register but %rsp and %rax and leaves the
whole context on the stack, right above the new stack pointer. -/
theorem save_spec (indirect isTailCall : Bool) (loc : Word) (s : State)
    (aligned : AlignedFor isTailCall (s.reg .rsp))
    (apart : Apart (s.reg .rsp - BitVec.ofNat 64 (contextSize indirect isTailCall))
      (contextSize indirect isTailCall) loc 8) :
    ∃ t, applyOps (saveOps indirect isTailCall loc) s = some t ∧ Saved indirect isTailCall loc s t := by
  have words := wordsSize_le indirect
  have room := xmmRoom_le isTailCall
  have size : contextSize indirect isTailCall = (xmmRoom isTailCall + 8) + wordsSize indirect := by
    simp only [contextSize]; omega
  let low : Word := s.reg .rsp - BitVec.ofNat 64 (contextSize indirect isTailCall)
  have base : s.reg .rsp - BitVec.ofNat 64 (wordsSize indirect) =
      low + BitVec.ofNat 64 (xmmRoom isTailCall + 8) := by
    simp only [low]
    rw [size,BitVec.ofNat_add (n := 64) (xmmRoom isTailCall + 8)]
    bv_omega
  obtain ⟨u,first,p⟩ := saveGeneral_spec indirect loc s (by
    rw [base]
    exact apart.mono (fun x inside => inside.shift (by omega) (by omega)) fun _ other => other)
  have mid : u.reg .rsp = low + BitVec.ofNat 64 (xmmRoom isTailCall + 8) := by
    rw [← base,p.rsp,BitVec.add_sub_cancel]
  obtain ⟨t,last,q⟩ := saveFp_spec isTailCall u (by
    rw [mid,← base]
    exact aligned.area indirect)
  have bottom : t.reg .rsp = low := by
    have top := q.rsp
    rw [mid] at top
    exact (BitVec.add_left_inj _).mp top.symm
  have whole : low.toNat % 16 = 0 := by
    have area := aligned.area indirect
    rw [base] at area
    simp only [BitVec.ofNat_add] at area
    bv_omega
  refine ⟨t,?_,?_,?_,q.xmm.trans p.xmm,⟨?_,?_,?_⟩,?_,?_⟩
  · rw [saveOps,applyOps_append,first,Option.bind_some,last]
  · rw [bottom]
    exact (BitVec.sub_add_cancel _ _).symm
  · intro r notSp notAx
    rw [q.others r notSp notAx,p.others r notSp notAx]
  · rw [bottom]
    exact whole
  · have area := q.area
    rwa [p.xmm] at area
  · have held := p.words
    rw [← q.rsp]
    refine held.congr (by rw [length_savedWords]; omega) fun x inside => q.frame x fun below => ?_
    rw [length_savedWords,mid] at inside
    rw [bottom] at below
    exact apart_next low (by omega) x below inside
  · rw [load_frame q.frame (apart.mono (fun x inside => ?_) fun _ other => other) (by decide)]
    · exact p.location
    · rw [bottom] at inside
      exact inside.widen (by omega)
  · intro x outside away
    rw [bottom] at outside
    rw [q.frame x fun inside => outside ?_,p.frame x (fun inside => outside ?_) away]
    · rw [mid] at inside
      exact inside.shift (by omega) (by omega)
    · rw [bottom] at inside
      exact inside.widen (by omega)

structure RestoredFp (isTailCall : Bool) (xmm : Fin 16 → BitVec 128) (r t : State) : Prop where
  rsp : t.reg .rsp = r.reg .rsp + BitVec.ofNat 64 (xmmRoom isTailCall + 8)
  others : ∀ q, q ≠ .rsp → q ≠ .rax → t.reg q = r.reg q
  xmm : ∀ x : Fin 16, x.val < 8 → t.xmm x = xmm x
  mem : t.mem = r.mem

theorem restoreFp_spec (isTailCall : Bool) (xmm : Fin 16 → BitVec 128) (r : State)
    (aligned : (r.reg .rsp).toNat % 16 = 0) (area : XmmAt r.mem (r.reg .rsp + 16) 8 xmm) :
    ∃ t, applyOps (restoreFpOps isTailCall) r = some t ∧ RestoredFp isTailCall xmm r t := by
  let popped : State := (r.set .rsp (r.reg .rsp + 8)).set .rax (load 64 r.mem (r.reg .rsp))
  let u : State := {popped.set .rax (r.reg .rsp + 16) with flags := Flags.ofAdd (r.reg .rsp + 8) 8}
  have upper : popped.reg .rsp = r.reg .rsp + 8 := by simp [popped]
  have index : applyOps indexOps popped = some u := by
    rw [applyOps_indexOps,upper]
    have sum : r.reg .rsp + 8 + 8 = r.reg .rsp + 16 := add_ofNat _ 8 8
    rw [sum]
  have base : u.reg .rax = r.reg .rsp + 16 := by simp [u]
  have loads := applyOps_xmmLoads .rax 8 u xmm (by decide) (by rw [base]; bv_omega)
    (by rw [base]; exact area)
  let v : State := {u with xmm := fun x => if x.val < 8 then xmm x else u.xmm x}
  refine ⟨v.set .rsp (r.reg .rsp + 8 + BitVec.ofNat 64 (xmmRoom isTailCall)),?_,?_,?_,?_,rfl⟩
  · have pop : applyOps [.pop .rax] r = some popped := rfl
    have lea : applyOps [.lea .rsp ⟨some .rsp,none,BitVec.ofNat 64 (xmmRoom isTailCall)⟩] v =
        some (v.set .rsp (r.reg .rsp + 8 + BitVec.ofNat 64 (xmmRoom isTailCall))) := by
      simp [Op.apply,MemRef.addr,v,u,upper]
    rw [restoreFpOps,applyOps_append,applyOps_append,applyOps_append,pop,Option.bind_some,index,
      Option.bind_some,loads,Option.bind_some]
    exact lea
  · rw [State.set_reg,if_pos rfl,Nat.add_comm]
    exact add_ofNat _ 8 _
  · intro q notSp notAx
    simp [v,u,popped,notSp,notAx]
  · intro x inside
    simp [v,inside]

structure Restored (indirect isTailCall : Bool) (s r t : State) : Prop where
  rsp : t.reg .rsp = r.reg .rsp + BitVec.ofNat 64 (contextSize indirect isTailCall)
  saved : ∀ q ∈ savedRegs ++ indirectRegs indirect, t.reg q = s.reg q
  others : ∀ q, q ≠ .rsp → q ∉ savedRegs ++ indirectRegs indirect → t.reg q = r.reg q
  xmm : ∀ x : Fin 16, x.val < 8 → t.xmm x = s.xmm x
  flags : t.flags = s.flags
  mem : t.mem = r.mem

theorem restoreFlags_spec (s r : State) (held : load 64 r.mem (r.reg .rsp) = flagWord s) :
    ∃ t, applyOps [.pop .rax,.addAl 0x7f,.sahf] r = some t ∧ t.flags = s.flags ∧
      t.reg .rsp = r.reg .rsp + 8 ∧ (∀ q, q ≠ .rsp → q ≠ .rax → t.reg q = r.reg q) ∧
      t.xmm = r.xmm ∧ t.mem = r.mem := by
  let u : State := (r.set .rsp (r.reg .rsp + 8)).set .rax (flagWord s)
  have pop : (Op.pop .rax).apply r = some u := by simp only [Op.apply,held,u]
  let v : State := {u.set .rax (withAl (flagWord s) (al (flagWord s) + 0x7f)) with
    flags := Flags.ofAdd (al (flagWord s)) 0x7f}
  have add : (Op.addAl 0x7f).apply u = some v := by simp [Op.apply,u,v]
  refine ⟨{v with flags := v.flags.withByte (ah (v.reg .rax))},?_,?_,?_,?_,rfl,rfl⟩
  · rw [applyOps_cons,pop,Option.bind_some,applyOps_cons,add,Option.bind_some]
    rfl
  · have back := flags_restored (s.reg .rax) s.flags
    simpa [v,flagWord] using back
  · simp [v,u]
  · intro q notSp notAx
    simp [v,u,notSp,notAx]

/-- The restore sequence brings back every saved register, the flags and the
stack pointer, and writes no memory. -/
theorem restore_spec (indirect isTailCall : Bool) (s r : State)
    (held : ContextAt indirect isTailCall s r.mem (r.reg .rsp)) :
    ∃ t, applyOps (restoreOps indirect isTailCall) r = some t ∧
      Restored indirect isTailCall s r t := by
  obtain ⟨u,first,p⟩ := restoreFp_spec isTailCall s.xmm r held.aligned held.area
  have words := held.words
  rw [← p.rsp,← p.mem] at words
  obtain ⟨more,rest⟩ := words.append
  obtain ⟨v,second,q⟩ := applyOps_pop (indirectRegs indirect).reverse _ u
    (by cases indirect <;> decide) (by cases indirect <;> decide) more (by simp)
  have up : v.reg .rsp = u.reg .rsp + BitVec.ofNat 64 (8 * (indirectRegs indirect).length) := by
    rw [q.rsp,List.length_reverse]
  have here : WordsAt v.mem (v.reg .rsp) (flagWord s :: savedRegs.reverse.map s.reg) := by
    rw [q.mem,up]
    simpa using rest
  obtain ⟨w,third,flags,sp,still,xmm,mem⟩ := restoreFlags_spec s v here.1
  obtain ⟨t,last,f⟩ := applyOps_pop savedRegs.reverse (savedRegs.reverse.map s.reg) w (by decide)
    (by decide) (by rw [mem,sp]; exact here.2) (by simp)
  refine ⟨t,?_,?_,?_,?_,?_,?_,?_⟩
  · have third' : ((applyOps [.pop .rax] v).bind (applyOps [.addAl 0x7f,.sahf])) = some w := by
      rw [← applyOps_append]
      exact third
    simp only [restoreOps,applyOps_append,first,second,Option.bind_some]
    obtain ⟨a,one,two⟩ := Option.bind_eq_some_iff.mp third'
    rw [one,Option.bind_some,two,Option.bind_some,last]
  · rw [f.rsp,sp,up,p.rsp]
    simp only [contextSize,wordsSize,savedRegs,List.length_reverse,List.length_cons,List.length_nil]
    have eight : (8 : Word) = BitVec.ofNat 64 8 := rfl
    rw [eight,add_ofNat,add_ofNat,add_ofNat]
    congr 2
    omega
  · intro x listed
    by_cases popped : x ∈ savedRegs
    · exact List.map_inj_left.mp f.values x (List.mem_reverse.mpr popped)
    · have member : x ∈ indirectRegs indirect := by simpa [popped] using listed
      have notSp : x ≠ .rsp := by rintro rfl; cases indirect <;> exact absurd member (by decide)
      have notAx : x ≠ .rax := by rintro rfl; exact popped (by decide)
      rw [f.others x notSp (mt List.mem_reverse.mp popped),still x notSp notAx]
      exact List.map_inj_left.mp q.values x (List.mem_reverse.mpr member)
  · intro x notSp absent
    simp only [List.mem_append,not_or] at absent
    have notAx : x ≠ .rax := by rintro rfl; exact absent.1 (by decide)
    rw [f.others x notSp (mt List.mem_reverse.mp absent.1),still x notSp notAx,
      q.others x notSp (mt List.mem_reverse.mp absent.2),p.others x notSp notAx]
  · intro x inside
    rw [f.xmm,xmm,q.xmm,p.xmm x inside]
  · rw [f.flags,flags]
  · rw [f.mem,mem,q.mem,p.mem]

end SelfPropelled
