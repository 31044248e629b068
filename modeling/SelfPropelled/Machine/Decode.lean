import SelfPropelled.Machine.State

/-! Decoder for the subset: prefixes, REX, opcode, ModRM, SIB, displacement and
immediate. Encodings outside the subset decode to nothing. -/

namespace SelfPropelled.Machine

def takeBytes : Nat → List Byte → Option (List Byte)
  | 0, _ => some []
  | _ + 1, [] => none
  | n + 1, b :: bs => (takeBytes n bs).map (b :: ·)

@[simp] theorem takeBytes_append (bs rest : List Byte) :
    takeBytes bs.length (bs ++ rest) = some bs := by
  induction bs with
  | nil => rfl
  | cons b bs ih => simp [takeBytes,ih]

def immediate (n w : Nat) (bs : List Byte) : Option (BitVec w) := (takeBytes n bs).map (ofBytes w)

theorem immediate_toBytes {w : Nat} (n : Nat) (v : BitVec w) (rest : List Byte)
    (wide : w ≤ 8 * n) : immediate n w (toBytes n v ++ rest) = some v := by
  have front := takeBytes_append (toBytes n v) rest
  rw [length_toBytes] at front
  rw [immediate,front,Option.map_some,ofBytes_toBytes n v wide]

/-- Prefix state: operand-size override, repeat prefix, and the REX bits. -/
structure Prefix where
  opSize : Bool
  rep : Bool
  w : Bool
  r : Bool
  x : Bool
  b : Bool
deriving DecidableEq, Repr

def Prefix.none : Prefix := ⟨false,false,false,false,false,false⟩

/-- Segment overrides that 64-bit mode ignores. -/
def ignoredPrefix (b : Byte) : Bool := b == 0x26 || b == 0x2e || b == 0x36 || b == 0x3e

def extend (bit : Bool) (n : Nat) : Nat := if bit then 8 + n else n

/-- A decoded ModRM operand. -/
inductive RM
  | reg (r : Reg)
  | mem (m : MemRef)
  | rip (d : Word)
deriving DecidableEq, Repr

def disp32 (bs : List Byte) : Option Word := (immediate 4 32 bs).map (·.signExtend 64)
def disp8 (bs : List Byte) : Option Word := (immediate 1 8 bs).map (·.signExtend 64)

def displacement (mod : Nat) (bs : List Byte) : Option (Word × Nat) :=
  match mod with
  | 0 => some (0,0)
  | 1 => (disp8 bs).map (·,1)
  | _ => (disp32 bs).map (·,4)

def decodeSib (p : Prefix) (mod : Nat) : List Byte → Option (MemRef × Nat)
  | [] => none
  | sib :: bs =>
    let index := extend p.x (sib.toNat / 8 % 8)
    let scaled := if index = 4 then none else some (Reg.numbered index,sib.toNat / 64)
    if mod = 0 ∧ sib.toNat % 8 = 5 then
      (disp32 bs).map fun d => (⟨none,scaled,d⟩,5)
    else
      (displacement mod bs).map fun d =>
        (⟨some (Reg.numbered (extend p.b (sib.toNat % 8))),scaled,d.1⟩,1 + d.2)

def decodeModRM (p : Prefix) : List Byte → Option (Nat × RM × Nat)
  | [] => none
  | modrm :: bs =>
    let mod := modrm.toNat / 64
    let reg := modrm.toNat / 8 % 8
    let rm := modrm.toNat % 8
    if mod = 3 then some (reg,.reg (Reg.numbered (extend p.b rm)),1)
    else if rm = 4 then (decodeSib p mod bs).map fun m => (reg,.mem m.1,1 + m.2)
    else if mod = 0 ∧ rm = 5 then (disp32 bs).map fun d => (reg,.rip d,5)
    else (displacement mod bs).map fun d =>
      (reg,.mem ⟨some (Reg.numbered (extend p.b rm)),none,d.1⟩,1 + d.2)

def RM.target : RM → Target
  | .reg r => .reg r
  | .mem m => .mem m
  | .rip d => .ripMem d

/-- The group of opcode `ff`: near indirect call and jump. -/
def decodeGroup5 (p : Prefix) (bs : List Byte) : Option (Instr × Nat) :=
  match decodeModRM p bs with
  | some (2,rm,n) => some (.ctl (.call rm.target),1 + n)
  | some (4,rm,n) => some (.ctl (.jmp rm.target),1 + n)
  | _ => none

def decodeMovdqa (p : Prefix) (isLoad : Bool) (bs : List Byte) : Option (Instr × Nat) :=
  match decodeModRM p bs with
  | some (reg,.mem m,n) =>
    let x := Fin.ofNat 16 (extend p.r reg)
    some (.op (if isLoad then .movdqaLoad x m else .movdqaStore m x),2 + n)
  | _ => none

def decodeTwoByte (p : Prefix) : List Byte → Option (Instr × Nat)
  | [] => none
  | b :: bs =>
    if b = 0x6f ∧ p.opSize ∧ !p.rep then decodeMovdqa p true bs
    else if b = 0x7f ∧ p.opSize ∧ !p.rep then decodeMovdqa p false bs
    else if b = 0x90 ∧ bs.head? = some 0xc0 ∧ !p.b then some (.op .setoAl,3)
    else none

def decodeMove (p : Prefix) (op : Byte) (bs : List Byte) : Option (Instr × Nat) :=
  match decodeModRM p bs with
  | some (reg,rm,n) =>
    let r := Reg.numbered (extend p.r reg)
    match rm with
    | .mem m =>
      if op = 0x89 then some (.op (.movStore m r),1 + n)
      else if op = 0x8d then some (.op (.lea r m),1 + n) else none
    | .reg q =>
      if op = 0x89 then some (.op (.movReg q r),1 + n)
      else if op = 0x8b then some (.op (.movReg r q),1 + n) else none
    | .rip _ => none
  | none => none

def decodeOpcode (p : Prefix) : List Byte → Option (Instr × Nat)
  | [] => none
  | b :: bs =>
    let reg := Reg.numbered (extend p.b (b.toNat % 8))
    if b.toNat / 8 = 0x50 / 8 ∧ !p.opSize then some (.op (.push reg),1)
    else if b.toNat / 8 = 0x58 / 8 ∧ !p.opSize then some (.op (.pop reg),1)
    else if b.toNat / 8 = 0xb8 / 8 ∧ p.w then
      (immediate 8 64 bs).map fun v => (.op (.movImm reg v),9)
    else if b = 0x0f then decodeTwoByte p bs
    else if (b = 0x89 ∨ b = 0x8b ∨ b = 0x8d) ∧ p.w then decodeMove p b bs
    else if b = 0x05 ∧ p.w then
      (disp32 bs).map fun v => (.op (.addRax v),5)
    else if b = 0x80 ∧ bs.head? = some 0xc0 ∧ !p.b then
      (immediate 1 8 (bs.drop 1)).map fun v => (.op (.addAl v),3)
    else if b = 0x68 ∧ p.opSize then (immediate 2 16 bs).map fun v => (.op (.pushImm16 v),3)
    else if b = 0x9e then some (.op .sahf,1)
    else if b = 0x9f then some (.op .lahf,1)
    else if b = 0xc3 ∧ !p.opSize then some (.ctl .ret,1)
    else if b = 0xe8 ∧ !p.opSize then (disp32 bs).map fun d => (.ctl (.call (.rel d)),5)
    else if b = 0xe9 ∧ !p.opSize then (disp32 bs).map fun d => (.ctl (.jmp (.rel d)),5)
    else if b = 0xeb ∧ !p.opSize then (disp8 bs).map fun d => (.ctl (.jmp (.rel d)),2)
    else if b = 0xff ∧ !p.opSize then decodeGroup5 p bs
    else none

/-- At most one REX byte, directly before the opcode. -/
def decodeRex (p : Prefix) : List Byte → Option (Instr × Nat)
  | [] => none
  | b :: bs =>
    if b.toNat / 16 = 4 then
      (decodeOpcode {p with
        w := b.getLsbD 3, r := b.getLsbD 2, x := b.getLsbD 1, b := b.getLsbD 0} bs).map
        fun i => (i.1,1 + i.2)
    else decodeOpcode p (b :: bs)

def decodeFrom (p : Prefix) : List Byte → Option (Instr × Nat)
  | [] => none
  | b :: bs =>
    if b = 0x66 then (decodeFrom {p with opSize := true} bs).map fun i => (i.1,1 + i.2)
    else if b = 0xf2 ∨ b = 0xf3 then (decodeFrom {p with rep := true} bs).map fun i => (i.1,1 + i.2)
    else if ignoredPrefix b then (decodeFrom p bs).map fun i => (i.1,1 + i.2)
    else decodeRex p (b :: bs)

def decode (bs : List Byte) : Option (Instr × Nat) := decodeFrom Prefix.none bs

end SelfPropelled.Machine
