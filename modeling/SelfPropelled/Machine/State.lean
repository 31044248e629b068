import SelfPropelled.Machine.Memory

/-! Machine state and instruction semantics of the x86-64 subset that generated
patch code uses: stack traffic, register moves, the flag byte, the aligned
128-bit moves, near control transfers. Data instructions neither read nor write
the instruction pointer, so they act on a state whose `rip` stays put. -/

namespace SelfPropelled.Machine

inductive Reg
  | rax | rcx | rdx | rbx | rsp | rbp | rsi | rdi
  | r8 | r9 | r10 | r11 | r12 | r13 | r14 | r15
deriving DecidableEq, Repr

instance instNeZeroXmm : NeZero 16 := ⟨by decide⟩

/-- Register numbers as the ModRM, SIB and opcode fields write them. -/
def Reg.numbered : Nat → Reg
  | 0 => .rax | 1 => .rcx | 2 => .rdx | 3 => .rbx | 4 => .rsp | 5 => .rbp | 6 => .rsi | 7 => .rdi
  | 8 => .r8 | 9 => .r9 | 10 => .r10 | 11 => .r11 | 12 => .r12 | 13 => .r13 | 14 => .r14 | _ => .r15

structure Flags where
  cf : Bool
  pf : Bool
  af : Bool
  zf : Bool
  sf : Bool
  of : Bool
deriving DecidableEq, Repr

structure State where
  reg : Reg → Word
  xmm : Fin 16 → BitVec 128
  flags : Flags
  mem : Memory
  rip : Word

def State.set (s : State) (r : Reg) (v : Word) : State :=
  {s with reg := fun q => if q = r then v else s.reg q}

@[simp] theorem State.set_reg (s : State) (r q : Reg) (v : Word) :
    (s.set r v).reg q = if q = r then v else s.reg q := rfl
@[simp] theorem State.set_xmm (s : State) (r : Reg) (v : Word) : (s.set r v).xmm = s.xmm := rfl
@[simp] theorem State.set_flags (s : State) (r : Reg) (v : Word) : (s.set r v).flags = s.flags := rfl
@[simp] theorem State.set_mem (s : State) (r : Reg) (v : Word) : (s.set r v).mem = s.mem := rfl
@[simp] theorem State.set_rip (s : State) (r : Reg) (v : Word) : (s.set r v).rip = s.rip := rfl

theorem State.set_set (s : State) (r : Reg) (v w : Word) : (s.set r v).set r w = s.set r w := by
  have same : (fun q => if q = r then w else if q = r then v else s.reg q) =
      fun q => if q = r then w else s.reg q := by
    funext q
    split <;> rfl
  simp only [State.set,same]

def Flags.parity (b : Byte) : Bool :=
  !(b.getLsbD 0 ^^ b.getLsbD 1 ^^ b.getLsbD 2 ^^ b.getLsbD 3 ^^
    b.getLsbD 4 ^^ b.getLsbD 5 ^^ b.getLsbD 6 ^^ b.getLsbD 7)

def Flags.ofAdd {w : Nat} (a b : BitVec w) : Flags where
  cf := decide (2 ^ w ≤ a.toNat + b.toNat)
  pf := Flags.parity ((a + b).setWidth 8)
  af := decide (16 ≤ a.toNat % 16 + b.toNat % 16)
  zf := decide (a + b = 0)
  sf := (a + b).msb
  of := a.msb == b.msb && (a + b).msb != a.msb

/-- The byte `lahf` builds: SF:ZF:0:AF:0:PF:1:CF. -/
def Flags.toByte (f : Flags) : Byte :=
  BitVec.ofBool f.sf ++ BitVec.ofBool f.zf ++ 0#1 ++ BitVec.ofBool f.af ++
    0#1 ++ BitVec.ofBool f.pf ++ 1#1 ++ BitVec.ofBool f.cf

/-- What `sahf` takes from that byte; the overflow flag is not part of it. -/
def Flags.withByte (f : Flags) (b : Byte) : Flags :=
  {f with
    cf := b.getLsbD 0
    pf := b.getLsbD 2
    af := b.getLsbD 4
    zf := b.getLsbD 6
    sf := b.getLsbD 7}

def al (v : Word) : Byte := v.setWidth 8
def ah (v : Word) : Byte := (v >>> 8).setWidth 8
def withAl (v : Word) (b : Byte) : Word := (v >>> 8 <<< 8) ||| b.setWidth 64
def withAh (v : Word) (b : Byte) : Word := (v >>> 16 <<< 16) ||| b.setWidth 64 <<< 8 ||| (al v).setWidth 64

@[simp] theorem al_withAl (v : Word) (b : Byte) : al (withAl v b) = b := by
  apply BitVec.eq_of_getLsbD_eq
  intro i inside
  simp [al,withAl,inside]

@[simp] theorem ah_withAl (v : Word) (b : Byte) : ah (withAl v b) = ah v := by
  apply BitVec.eq_of_getLsbD_eq
  intro i inside
  have bound : 8 + i < 64 := by omega
  simp [ah,withAl,inside,bound]

@[simp] theorem ah_withAh (v : Word) (b : Byte) : ah (withAh v b) = b := by
  apply BitVec.eq_of_getLsbD_eq
  intro i inside
  have bound : 8 + i < 64 := by omega
  have low : 8 + i < 16 := by omega
  simp [ah,withAh,al,inside,low,bound]

/-- Packing the flags with `lahf` and `seto` and unpacking them with an addition
to %al and `sahf` gives them back. -/
theorem flags_restored (v : Word) (f : Flags) :
    let saved := withAl (withAh v f.toByte) (BitVec.setWidth 8 (BitVec.ofBool f.of))
    (Flags.ofAdd (al saved) 0x7f).withByte (ah (withAl saved (al saved + 0x7f))) = f := by
  simp only [al_withAl,ah_withAl,ah_withAh]
  obtain ⟨cf,pf,af,zf,sf,of⟩ := f
  cases cf <;> cases pf <;> cases af <;> cases zf <;> cases sf <;> cases of <;> decide

/-- A memory operand `[base + index * 2^scale + disp]`. -/
structure MemRef where
  base : Option Reg
  index : Option (Reg × Nat)
  disp : Word
deriving DecidableEq, Repr

def MemRef.addr (m : MemRef) (reg : Reg → Word) : Word :=
  (match m.base with | none => 0 | some r => reg r) +
    (match m.index with | none => 0 | some (r,scale) => reg r <<< scale) + m.disp

/-- Instructions after which control falls through. -/
inductive Op
  | push (r : Reg)
  | pop (r : Reg)
  | pushImm16 (v : BitVec 16)
  | movImm (r : Reg) (v : Word)
  | movReg (dst src : Reg)
  | movStore (m : MemRef) (src : Reg)
  | lea (dst : Reg) (m : MemRef)
  | addRax (v : Word)
  | addAl (v : Byte)
  | setoAl
  | lahf
  | sahf
  | movdqaStore (m : MemRef) (x : Fin 16)
  | movdqaLoad (x : Fin 16) (m : MemRef)
deriving DecidableEq, Repr

/-- The aligned moves fault on an address that is no multiple of 16. -/
def Op.apply : Op → State → Option State
  | .push r, s => some {s.set .rsp (s.reg .rsp - 8) with
      mem := store s.mem (s.reg .rsp - 8) (s.reg r)}
  | .pop r, s => some ((s.set .rsp (s.reg .rsp + 8)).set r (load 64 s.mem (s.reg .rsp)))
  | .pushImm16 v, s => some {s.set .rsp (s.reg .rsp - 2) with
      mem := store s.mem (s.reg .rsp - 2) v}
  | .movImm r v, s => some (s.set r v)
  | .movReg dst src, s => some (s.set dst (s.reg src))
  | .movStore m src, s => some {s with mem := store s.mem (m.addr s.reg) (s.reg src)}
  | .lea dst m, s => some (s.set dst (m.addr s.reg))
  | .addRax v, s => some {s.set .rax (s.reg .rax + v) with flags := Flags.ofAdd (s.reg .rax) v}
  | .addAl v, s => some {s.set .rax (withAl (s.reg .rax) (al (s.reg .rax) + v)) with
      flags := Flags.ofAdd (al (s.reg .rax)) v}
  | .setoAl, s => some (s.set .rax (withAl (s.reg .rax) (BitVec.setWidth 8 (BitVec.ofBool s.flags.of))))
  | .lahf, s => some (s.set .rax (withAh (s.reg .rax) s.flags.toByte))
  | .sahf, s => some {s with flags := s.flags.withByte (ah (s.reg .rax))}
  | .movdqaStore m x, s =>
      if (m.addr s.reg).toNat % 16 = 0
      then some {s with mem := store s.mem (m.addr s.reg) (s.xmm x)} else none
  | .movdqaLoad x m, s =>
      if (m.addr s.reg).toNat % 16 = 0
      then some {s with xmm := fun y => if y = x then load 128 s.mem (m.addr s.reg) else s.xmm y}
      else none

/-- Where a transfer goes: relative to the next instruction, through a register,
or through a pointer in memory. -/
inductive Target
  | rel (d : Word)
  | reg (r : Reg)
  | mem (m : MemRef)
  | ripMem (d : Word)
deriving DecidableEq, Repr

def Target.resolve (t : Target) (next : Word) (s : State) : Word :=
  match t with
  | .rel d => next + d
  | .reg r => s.reg r
  | .mem m => load 64 s.mem (m.addr s.reg)
  | .ripMem d => load 64 s.mem (next + d)

/-- Instructions that transfer control. -/
inductive Ctl
  | jmp (t : Target)
  | call (t : Target)
  | ret
deriving DecidableEq, Repr

def Ctl.apply : Ctl → Word → State → State
  | .jmp t, next, s => {s with rip := t.resolve next s}
  | .call t, next, s => {s.set .rsp (s.reg .rsp - 8) with
      mem := store s.mem (s.reg .rsp - 8) next
      rip := t.resolve next s}
  | .ret, _, s => {s.set .rsp (s.reg .rsp + 8) with rip := load 64 s.mem (s.reg .rsp)}

inductive Instr
  | op (o : Op)
  | ctl (c : Ctl)
deriving DecidableEq, Repr

end SelfPropelled.Machine
