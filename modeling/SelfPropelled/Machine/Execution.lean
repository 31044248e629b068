import SelfPropelled.Machine.Decode

/-! Running machine code up to its next control transfer.
Instructions are fetched from a code image that data stores do not reach. -/

namespace SelfPropelled.Machine

def State.at (s : State) (p : Word) : State := {s with rip := p}

@[simp] theorem State.at_reg (s : State) (p : Word) : (s.at p).reg = s.reg := rfl
@[simp] theorem State.at_mem (s : State) (p : Word) : (s.at p).mem = s.mem := rfl
@[simp] theorem State.at_xmm (s : State) (p : Word) : (s.at p).xmm = s.xmm := rfl
@[simp] theorem State.at_flags (s : State) (p : Word) : (s.at p).flags = s.flags := rfl
@[simp] theorem State.at_rip (s : State) (p : Word) : (s.at p).rip = p := rfl
@[simp] theorem State.at_at (s : State) (p q : Word) : (s.at p).at q = s.at q := rfl
@[simp] theorem State.at_self (s : State) : s.at s.rip = s := rfl

theorem Op.apply_at (o : Op) (s : State) (p : Word) :
    o.apply (s.at p) = (o.apply s).map (·.at p) := by
  cases o with
  | movdqaStore m x =>
    by_cases whole : (m.addr s.reg).toNat % 16 = 0
    · simp only [Op.apply,State.at_reg,whole,if_true]; rfl
    · simp only [Op.apply,State.at_reg,whole,if_false]; rfl
  | movdqaLoad x m =>
    by_cases whole : (m.addr s.reg).toNat % 16 = 0
    · simp only [Op.apply,State.at_reg,whole,if_true]; rfl
    · simp only [Op.apply,State.at_reg,whole,if_false]; rfl
  | _ => rfl

@[simp] theorem Ctl.apply_at (c : Ctl) (next p : Word) (s : State) :
    c.apply next (s.at p) = c.apply next s := by
  cases c with
  | jmp t => cases t <;> rfl
  | call t => cases t <;> rfl
  | ret => rfl

def applyOps : List Op → State → Option State
  | [], s => some s
  | o :: os, s => (o.apply s).bind (applyOps os)

@[simp] theorem applyOps_nil (s : State) : applyOps [] s = some s := rfl

@[simp] theorem applyOps_cons (o : Op) (os : List Op) (s : State) :
    applyOps (o :: os) s = (o.apply s).bind (applyOps os) := rfl

theorem applyOps_append (os qs : List Op) (s : State) :
    applyOps (os ++ qs) s = (applyOps os s).bind (applyOps qs) := by
  induction os generalizing s with
  | nil => rfl
  | cons o os ih =>
    simp only [List.cons_append,applyOps_cons]
    cases o.apply s with
    | none => rfl
    | some t => simp only [Option.bind_some,ih]

theorem applyOps_at (os : List Op) (s : State) (p : Word) :
    applyOps os (s.at p) = (applyOps os s).map (·.at p) := by
  induction os generalizing s with
  | nil => rfl
  | cons o os ih =>
    rw [applyOps_cons,applyOps_cons,Op.apply_at]
    cases o.apply s with
    | none => rfl
    | some t => simp only [Option.map_some,Option.bind_some,ih]

/-- The image holds these bytes at this address. -/
def CodeAt (code : Memory) (a : Word) (bs : List Byte) : Prop :=
  ∀ i, (inside : i < bs.length) → code (a + BitVec.ofNat 64 i) = bs[i]

theorem CodeAt.left {code : Memory} {a : Word} {bs cs : List Byte}
    (held : CodeAt code a (bs ++ cs)) : CodeAt code a bs := by
  intro i inside
  rw [held i (by simp only [List.length_append]; omega),List.getElem_append_left inside]

theorem CodeAt.right {code : Memory} {a : Word} {bs cs : List Byte}
    (held : CodeAt code a (bs ++ cs)) : CodeAt code (a + BitVec.ofNat 64 bs.length) cs := by
  intro i inside
  have moved := held (bs.length + i) (by simp only [List.length_append]; omega)
  rw [List.getElem_append_right (by omega)] at moved
  simp only [Nat.add_sub_cancel_left] at moved
  rw [← moved,BitVec.ofNat_add,BitVec.add_assoc]

theorem codeAt_storeBytes (m : Memory) (a : Word) (bs : List Byte) (small : bs.length ≤ 2 ^ 64) :
    CodeAt (storeBytes m a bs) a bs := by
  intro i inside
  have distance : (a + BitVec.ofNat 64 i - a).toNat = i := by bv_omega
  rw [storeBytes_inside _ _ _ _ (by omega)]
  simp only [distance]

theorem codeAt_of_bytesAt {code : Memory} {a : Word} {bs : List Byte}
    (held : bytesAt code a bs.length = bs) : CodeAt code a bs := by
  intro i inside
  have read := getElem_bytesAt code a bs.length i (by rwa [length_bytesAt])
  rw [← read]
  simp only [held]

/-- The image that holds the bytes at the address and zeros elsewhere. -/
def imageOf (a : Word) (bs : List Byte) : Memory := storeBytes (fun _ => 0) a bs

theorem codeAt_imageOf (a : Word) (bs : List Byte) (small : bs.length ≤ 2 ^ 64) :
    CodeAt (imageOf a bs) a bs := codeAt_storeBytes _ a bs small

def maxInstrLength : Nat := 15

def fetch (code : Memory) (a : Word) : List Byte := bytesAt code a maxInstrLength

/-- The bytes encode the instruction, whatever follows them. -/
structure Encodes (i : Instr) (bs : List Byte) : Prop where
  short : bs.length ≤ maxInstrLength
  decoded : ∀ rest, decode (bs ++ rest) = some (i,bs.length)

theorem bytesAt_codeAt {code : Memory} {a : Word} {bs : List Byte} (held : CodeAt code a bs)
    (n : Nat) (fits : bs.length ≤ n) : ∃ rest, bytesAt code a n = bs ++ rest := by
  refine ⟨(bytesAt code a n).drop bs.length,?_⟩
  conv_lhs => rw [← List.take_append_drop bs.length (bytesAt code a n)]
  congr 1
  apply List.ext_getElem
  · simp [fits]
  · intro i left right
    rw [List.getElem_take,getElem_bytesAt,held i right]

theorem CodeAt.decode_fetch {code : Memory} {a : Word} {bs : List Byte} {i : Instr}
    (held : CodeAt code a bs) (enc : Encodes i bs) :
    decode (fetch code a) = some (i,bs.length) := by
  obtain ⟨rest,same⟩ := bytesAt_codeAt held maxInstrLength enc.short
  rw [fetch,same,enc.decoded]

/-- From one state the code runs straight on and makes its first control
transfer, which leads to the other state. -/
inductive Enters (code : Memory) : State → State → Prop
  | transfer (s : State) (c : Ctl) (n : Nat)
      (fetched : decode (fetch code s.rip) = some (.ctl c,n)) :
      Enters code s (c.apply (s.rip + BitVec.ofNat 64 n) s)
  | op (s t u : State) (o : Op) (n : Nat)
      (fetched : decode (fetch code s.rip) = some (.op o,n))
      (done : o.apply s = some t)
      (rest : Enters code (t.at (s.rip + BitVec.ofNat 64 n)) u) :
      Enters code s u

/-- Execution is deterministic. -/
theorem Enters.unique {code : Memory} {s t u : State} (first : Enters code s t)
    (second : Enters code s u) : t = u := by
  induction first with
  | transfer s c n fetched =>
    cases second with
    | transfer _ c' n' fetched' =>
      rw [fetched] at fetched'
      cases fetched'
      rfl
    | op _ _ _ o n' fetched' => rw [fetched] at fetched'; cases fetched'
  | op s t' u' o n fetched done rest ih =>
    cases second with
    | transfer _ c n' fetched' => rw [fetched] at fetched'; cases fetched'
    | op _ t'' _ o' n' fetched' done' rest' =>
      rw [fetched] at fetched'
      cases fetched'
      rw [done] at done'
      cases done'
      exact ih rest'

/-- A byte list that encodes a sequence of data instructions. -/
inductive Assembles : List Op → List Byte → Prop
  | nil : Assembles [] []
  | cons {o : Op} {os : List Op} (bs : List Byte) {cs : List Byte}
      (enc : Encodes (.op o) bs) (rest : Assembles os cs) : Assembles (o :: os) (bs ++ cs)

theorem Assembles.one {o : Op} {bs : List Byte} (enc : Encodes (.op o) bs) : Assembles [o] bs := by
  simpa using Assembles.cons bs enc .nil

theorem Assembles.append {os qs : List Op} {bs cs : List Byte} (first : Assembles os bs)
    (second : Assembles qs cs) : Assembles (os ++ qs) (bs ++ cs) := by
  induction first with
  | nil => exact second
  | cons ds enc rest ih =>
    rw [List.cons_append,List.append_assoc]
    exact .cons ds enc ih

theorem Assembles.flatMap {α : Type} (xs : List α) (op : α → Op) (bytes : α → List Byte)
    (each : ∀ x ∈ xs, Encodes (.op (op x)) (bytes x)) :
    Assembles (xs.map op) (xs.flatMap bytes) := by
  induction xs with
  | nil => exact .nil
  | cons x xs ih =>
    exact .cons (bytes x) (each x (by simp)) (ih fun y member => each y (by simp [member]))

/-- Straight-line code followed by a transfer enters where the transfer leads. -/
theorem Enters.straight {code : Memory} {s t : State} {os : List Op} {bs cs : List Byte} {c : Ctl}
    (asm : Assembles os bs) (enc : Encodes (.ctl c) cs) (held : CodeAt code s.rip (bs ++ cs))
    (done : applyOps os s = some t) :
    Enters code s (c.apply (s.rip + BitVec.ofNat 64 (bs.length + cs.length)) t) := by
  induction asm generalizing s t with
  | nil =>
    cases done
    simpa using Enters.transfer _ c cs.length (CodeAt.decode_fetch held enc)
  | @cons o os ds es first rest ih =>
    rw [List.append_assoc] at held
    obtain ⟨u,one,more⟩ := Option.bind_eq_some_iff.mp done
    refine .op s u _ o ds.length (CodeAt.decode_fetch held.left first) one ?_
    have moved := ih (s := u.at (s.rip + BitVec.ofNat 64 ds.length)) held.right
      (by rw [applyOps_at,more,Option.map_some])
    have next : s.rip + BitVec.ofNat 64 ds.length + BitVec.ofNat 64 (es.length + cs.length) =
        s.rip + BitVec.ofNat 64 ((ds ++ es).length + cs.length) := by
      rw [BitVec.add_assoc,← BitVec.ofNat_add,List.length_append,Nat.add_assoc]
    simpa only [State.at_rip,next,Ctl.apply_at] using moved

/-- Straight-line execution up to some point. -/
inductive Falls (code : Memory) : State → State → Prop
  | refl (s : State) : Falls code s s
  | op (s t u : State) (o : Op) (n : Nat)
      (fetched : decode (fetch code s.rip) = some (.op o,n))
      (done : o.apply s = some t)
      (rest : Falls code (t.at (s.rip + BitVec.ofNat 64 n)) u) :
      Falls code s u

theorem Falls.straight {code : Memory} {s t : State} {os : List Op} {bs : List Byte}
    (asm : Assembles os bs) (held : CodeAt code s.rip bs) (done : applyOps os s = some t) :
    Falls code s (t.at (s.rip + BitVec.ofNat 64 bs.length)) := by
  induction asm generalizing s t with
  | nil =>
    cases done
    have here : Falls code s s := .refl s
    simpa using here
  | @cons o os ds es first rest ih =>
    obtain ⟨u,one,more⟩ := Option.bind_eq_some_iff.mp done
    refine .op s u _ o ds.length (CodeAt.decode_fetch held.left first) one ?_
    have moved := ih (s := u.at (s.rip + BitVec.ofNat 64 ds.length)) held.right
      (by rw [applyOps_at,more,Option.map_some])
    simpa only [State.at_rip,State.at_at,add_ofNat,List.length_append] using moved

end SelfPropelled.Machine
