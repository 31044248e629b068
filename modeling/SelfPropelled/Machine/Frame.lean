import SelfPropelled.Machine.Stack

/-! What an instruction writes, and straight-line code under a memory that
others change too: code that loads nothing computes the same registers and
leaves the same bytes wherever only it writes. -/

namespace SelfPropelled.Machine

def Op.written (s : State) : Op → Word × Nat
  | .push _ => (s.reg .rsp - 8,8)
  | .pushImm16 _ => (s.reg .rsp - 2,2)
  | .movStore m _ => (m.addr s.reg,8)
  | .movdqaStore m _ => (m.addr s.reg,16)
  | _ => (0,0)

def Op.loads : Op → Bool
  | .pop _ | .movdqaLoad _ _ => true
  | _ => false

private theorem store_elsewhere {w : Nat} (m m' : Memory) (a : Word) (v : BitVec w) :
    (∀ x, In a (w / 8) x → store m' a v x = store m a v x) ∧
      SameOutside a (w / 8) m' (store m' a v) ∧ SameOutside a (w / 8) m (store m a v) := by
  refine ⟨fun x inside => ?_,sameOutside_store m' a v,sameOutside_store m a v⟩
  have within : (x - a).toNat < (toBytes (w / 8) v).length := by rwa [length_toBytes]
  rw [store,store,storeBytes_inside _ _ _ _ within,storeBytes_inside _ _ _ _ within]

/-- An instruction that loads nothing does the same in another memory, and writes
the same bytes to the same region. -/
theorem Op.apply_elsewhere {op : Op} {s t : State} (blind : op.loads = false)
    (done : op.apply s = some t) (m : Memory) :
    ∃ m', op.apply {s with mem := m} = some {t with mem := m'} ∧
      (∀ x, In (op.written s).1 (op.written s).2 x → m' x = t.mem x) ∧
      SameOutside (op.written s).1 (op.written s).2 m m' ∧
      SameOutside (op.written s).1 (op.written s).2 s.mem t.mem := by
  have none (x : Word) : ¬In 0 0 x := Nat.not_lt_zero _
  cases op with
  | pop r => cases blind
  | movdqaLoad x m => cases blind
  | push r =>
    cases done
    obtain ⟨same,frame,own⟩ := store_elsewhere s.mem m (s.reg .rsp - 8) (s.reg r)
    exact ⟨_,rfl,same,frame,own⟩
  | pushImm16 v =>
    cases done
    obtain ⟨same,frame,own⟩ := store_elsewhere s.mem m (s.reg .rsp - 2) v
    exact ⟨_,rfl,same,frame,own⟩
  | movStore ref src =>
    cases done
    obtain ⟨same,frame,own⟩ := store_elsewhere s.mem m (ref.addr s.reg) (s.reg src)
    exact ⟨_,rfl,same,frame,own⟩
  | movdqaStore ref x =>
    simp only [Op.apply] at done
    split at done
    · rename_i aligned
      cases done
      obtain ⟨same,frame,own⟩ := store_elsewhere s.mem m (ref.addr s.reg) (s.xmm x)
      exact ⟨_,by simp [Op.apply,aligned],same,frame,own⟩
    · cases done
  | movImm | movReg | lea | addRax | addAl | setoAl | lahf | sahf =>
    cases done
    exact ⟨m,rfl,fun x inside => absurd inside (none x),.refl _ _ _,.refl _ _ _⟩

/-- Every instruction meets the condition in the state it finds. -/
def Along (ok : Op → State → Prop) : List Op → State → Prop
  | [], _ => True
  | op :: rest, s => ok op s ∧ ∀ t, op.apply s = some t → Along ok rest t

theorem Along.append {ok : Op → State → Prop} {first second : List Op} {s : State}
    (front : Along ok first s) (back : ∀ t, applyOps first s = some t → Along ok second t) :
    Along ok (first ++ second) s := by
  induction first generalizing s with
  | nil => exact back s rfl
  | cons op rest ih =>
    refine ⟨front.1,fun t done => ih (front.2 t done) fun u more => back u ?_⟩
    rw [applyOps_cons,done,Option.bind_some,more]

theorem Along.mono {ok ok' : Op → State → Prop} {ops : List Op} {s : State} (along : Along ok ops s)
    (weaker : ∀ op ∈ ops, ∀ t, ok op t → ok' op t) : Along ok' ops s := by
  induction ops generalizing s with
  | nil => trivial
  | cons op rest ih =>
    exact ⟨weaker op (by simp) s along.1,fun t done =>
      ih (along.2 t done) fun o member => weaker o (by simp [member])⟩

theorem along_of_forall {ok : Op → State → Prop} {ops : List Op} (each : ∀ op ∈ ops, ∀ t, ok op t)
    (s : State) : Along ok ops s := by
  induction ops generalizing s with
  | nil => trivial
  | cons op rest ih =>
    exact ⟨each op (by simp) s,fun t _ => ih (fun o member => each o (by simp [member])) t⟩

/-- The instruction loads nothing and writes inside the region. -/
def Confined (a : Word) (n : Nat) (op : Op) (s : State) : Prop :=
  op.loads = false ∧ ∀ x, In (op.written s).1 (op.written s).2 x → In a n x

theorem confined_push (rs : List Reg) {s : State} {a : Word} {k n : Nat}
    (top : s.reg .rsp = a + BitVec.ofNat 64 k) (room : 8 * rs.length ≤ k) (inside : k ≤ n)
    (small : n ≤ 2 ^ 64) : Along (Confined a n) (rs.map .push) s := by
  induction rs generalizing s k with
  | nil => trivial
  | cons r rs ih =>
    simp only [List.length_cons] at room
    have below : s.reg .rsp - 8 = a + BitVec.ofNat 64 (k - 8) := by
      rw [top]
      bv_omega
    refine ⟨⟨rfl,fun x held => ?_⟩,fun t done => ?_⟩
    · simp only [Op.written,below] at held
      exact held.shift (by omega) small
    · cases done
      exact ih (k := k - 8) (by simpa using below) (by omega) (by omega)

theorem confined_registers {ops : List Op} {a : Word} {n : Nat} {s : State}
    (plain : ∀ op ∈ ops, op.loads = false ∧ ∀ t, (op.written t).2 = 0) : Along (Confined a n) ops s := by
  refine along_of_forall (fun op member t => ⟨(plain op member).1,fun x held => ?_⟩) s
  rw [(plain op member).2] at held
  exact absurd held (Nat.not_lt_zero _)

theorem applyOps_xmmStores_reg (base : Reg) (count : Nat) {s t : State}
    (done : applyOps (xmmStores base count) s = some t) : t.reg = s.reg := by
  have each : ∀ is : List Nat, ∀ s : State,
      applyOps (is.map fun i => Op.movdqaStore (xmmSlot base i) (Fin.ofNat 16 i)) s = some t →
        t.reg = s.reg := by
    intro is
    induction is with
    | nil =>
      intro s done
      cases done
      rfl
    | cons i is ih =>
      intro s done
      simp only [List.map_cons,applyOps_cons,Op.apply] at done
      split at done
      · have kept := ih _ done
        exact kept
      · cases done
  exact each _ s done

theorem confined_xmmStores (base : Reg) (count : Nat) {a : Word} {k n : Nat} {s : State}
    (start : s.reg base = a + BitVec.ofNat 64 k) (room : k + 16 * count ≤ n) (small : n ≤ 2 ^ 64) :
    Along (Confined a n) (xmmStores base count) s := by
  have each : ∀ is : List Nat, (∀ i ∈ is, i < count) → ∀ t : State, t.reg = s.reg →
      Along (Confined a n) (is.map fun i => Op.movdqaStore (xmmSlot base i) (Fin.ofNat 16 i)) t := by
    intro is
    induction is with
    | nil => exact fun _ _ _ => trivial
    | cons i is ih =>
      intro below t same
      have bound := below i (by simp)
      refine ⟨⟨rfl,fun x held => ?_⟩,fun u done => ih (fun j member => below j (by simp [member])) u ?_⟩
      · simp only [Op.written,xmmSlot_addr,same,start,add_ofNat] at held
        exact held.shift (by omega) small
      · simp only [Op.apply] at done
        split at done
        · cases done
          exact same
        · cases done
  exact each _ (fun i member => List.mem_range.mp member) s rfl

end SelfPropelled.Machine
