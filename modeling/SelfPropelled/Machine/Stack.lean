import SelfPropelled.Machine.Execution

/-! Save areas on the machine stack: runs of pushes and pops, blocks of aligned
128-bit stores and loads, and what a call that obeys the calling convention may
change. -/

namespace SelfPropelled.Machine

def WordsAt (m : Memory) : Word → List Word → Prop
  | _, [] => True
  | a, v :: vs => load 64 m a = v ∧ WordsAt m (a + 8) vs

theorem WordsAt.congr {m m' : Memory} {a : Word} {ws : List Word} (held : WordsAt m a ws)
    (small : 8 * ws.length ≤ 2 ^ 64) (same : ∀ x, In a (8 * ws.length) x → m' x = m x) :
    WordsAt m' a ws := by
  induction ws generalizing a with
  | nil => trivial
  | cons v vs ih =>
    simp only [List.length_cons] at small same
    refine ⟨?_,ih held.2 (by omega) fun x inside => same x ?_⟩
    · rw [load_congr (by decide) fun x inside => same x (inside.widen (by omega))]
      exact held.1
    · exact In.shift (k := 8) inside (by omega) small

theorem WordsAt.append {m : Memory} {a : Word} {vs ws : List Word} (held : WordsAt m a (vs ++ ws)) :
    WordsAt m a vs ∧ WordsAt m (a + BitVec.ofNat 64 (8 * vs.length)) ws := by
  induction vs generalizing a with
  | nil => simpa [WordsAt] using held
  | cons v vs ih =>
    obtain ⟨front,back⟩ := ih held.2
    have next : a + 8 + BitVec.ofNat 64 (8 * vs.length) =
        a + BitVec.ofNat 64 (8 * (v :: vs).length) := by
      rw [List.length_cons,Nat.mul_succ,Nat.add_comm]
      exact add_ofNat a 8 _
    exact ⟨⟨held.1,front⟩,next ▸ back⟩

/-- The effect of a run of pushes on a stack that already holds `ws`. -/
structure Pushed (rs : List Reg) (ws : List Word) (s t : State) : Prop where
  rsp : t.reg .rsp = s.reg .rsp - BitVec.ofNat 64 (8 * rs.length)
  others : ∀ r, r ≠ .rsp → t.reg r = s.reg r
  xmm : t.xmm = s.xmm
  flags : t.flags = s.flags
  words : WordsAt t.mem (t.reg .rsp) (rs.reverse.map s.reg ++ ws)
  frame : SameOutside (t.reg .rsp) (8 * rs.length) s.mem t.mem

theorem applyOps_push (rs : List Reg) (ws : List Word) (s : State) (plain : Reg.rsp ∉ rs)
    (held : WordsAt s.mem (s.reg .rsp) ws) (small : 8 * (rs.length + ws.length) ≤ 2 ^ 64) :
    ∃ t, applyOps (rs.map .push) s = some t ∧ Pushed rs ws s t := by
  induction rs generalizing s ws with
  | nil => exact ⟨s,rfl,by simp,fun _ _ => rfl,rfl,rfl,held,.refl _ _ _⟩
  | cons r rs ih =>
    simp only [List.mem_cons,not_or,List.length_cons] at plain small
    let u : State := {s.set .rsp (s.reg .rsp - 8) with mem := store s.mem (s.reg .rsp - 8) (s.reg r)}
    have stored : SameOutside (u.reg .rsp) 8 s.mem u.mem := by
      simpa [u] using sameOutside_store s.mem (s.reg .rsp - 8) (s.reg r)
    have back : s.reg .rsp = u.reg .rsp + 8 := by simp [u]
    have top : WordsAt u.mem (u.reg .rsp) (s.reg r :: ws) := by
      refine ⟨?_,?_⟩
      · simpa [u] using load_store s.mem (s.reg .rsp - 8) (s.reg r) (by decide) (by decide)
      · rw [← back]
        refine held.congr (by omega) (stored.apart ?_)
        rw [back]
        exact apart_next _ (by omega)
    obtain ⟨t,done,p⟩ := ih (s.reg r :: ws) u plain.2 top (by simp only [List.length_cons]; omega)
    have untouched : ∀ q, q ≠ .rsp → u.reg q = s.reg q := by intro q other; simp [u,other]
    have low : u.reg .rsp = t.reg .rsp + BitVec.ofNat 64 (8 * rs.length) := by
      rw [p.rsp,BitVec.sub_add_cancel]
    have sp : s.reg .rsp = t.reg .rsp + BitVec.ofNat 64 (8 * (rs.length + 1)) := by
      rw [back,low]
      exact add_ofNat _ _ 8
    refine ⟨t,done,?_,?_,p.xmm,p.flags,?_,?_⟩
    · rw [List.length_cons,sp,BitVec.add_sub_cancel]
    · intro q other
      rw [p.others q other,untouched q other]
    · have values : rs.reverse.map u.reg = rs.reverse.map s.reg := by
        apply List.map_congr_left
        intro q member
        exact untouched q (by rintro rfl; exact plain.2 (List.mem_reverse.mp member))
      simpa [values,List.append_assoc] using p.words
    · rw [List.length_cons]
      refine (stored.mono fun x inside => ?_).trans (p.frame.mono fun x inside => inside.widen (by omega))
      rw [low] at inside
      exact inside.shift (by omega) (by omega)

/-- The effect of a run of pops. -/
structure Popped (rs : List Reg) (ws : List Word) (s t : State) : Prop where
  rsp : t.reg .rsp = s.reg .rsp + BitVec.ofNat 64 (8 * rs.length)
  values : rs.map t.reg = ws
  others : ∀ r, r ≠ .rsp → r ∉ rs → t.reg r = s.reg r
  xmm : t.xmm = s.xmm
  flags : t.flags = s.flags
  mem : t.mem = s.mem

theorem applyOps_pop (rs : List Reg) (ws : List Word) (s : State) (plain : Reg.rsp ∉ rs)
    (distinct : rs.Nodup) (held : WordsAt s.mem (s.reg .rsp) ws) (size : ws.length = rs.length) :
    ∃ t, applyOps (rs.map .pop) s = some t ∧ Popped rs ws s t := by
  induction rs generalizing s ws with
  | nil =>
    obtain rfl := List.length_eq_zero_iff.mp size
    exact ⟨s,rfl,by simp,rfl,fun _ _ _ => rfl,rfl,rfl,rfl⟩
  | cons r rs ih =>
    obtain ⟨v,vs,rfl⟩ := List.exists_cons_of_length_eq_add_one size
    simp only [List.mem_cons,not_or] at plain
    obtain ⟨fresh,distinct⟩ := List.nodup_cons.mp distinct
    let u : State := (s.set .rsp (s.reg .rsp + 8)).set r (load 64 s.mem (s.reg .rsp))
    have upper : u.reg .rsp = s.reg .rsp + 8 := by simp [u,plain.1]
    obtain ⟨t,done,p⟩ := ih vs u plain.2 distinct (by rw [upper]; exact held.2) (by simpa using size)
    refine ⟨t,done,?_,?_,?_,p.xmm,p.flags,p.mem⟩
    · rw [p.rsp,upper,List.length_cons,Nat.mul_succ,Nat.add_comm]
      exact add_ofNat _ 8 _
    · have loaded : t.reg r = v := by
        rw [p.others r (fun same => plain.1 same.symm) fresh,← held.1]
        simp [u]
      rw [List.map_cons,loaded,p.values]
    · intro q other absent
      simp only [List.mem_cons,not_or] at absent
      rw [p.others q other absent.2]
      simp [u,other,absent.1]

/-- The block of aligned moves between registers `0..n-1` and memory at a base register. -/
def xmmSlot (base : Reg) (i : Nat) : MemRef := ⟨some base,none,BitVec.ofNat 64 (16 * i)⟩

theorem xmmSlot_addr (base : Reg) (i : Nat) (reg : Reg → Word) :
    (xmmSlot base i).addr reg = reg base + BitVec.ofNat 64 (16 * i) := by
  simp [xmmSlot,MemRef.addr]

def xmmStores (base : Reg) (n : Nat) : List Op :=
  (List.range n).map fun i => .movdqaStore (xmmSlot base i) (Fin.ofNat 16 i)

def xmmLoads (base : Reg) (n : Nat) : List Op :=
  (List.range n).map fun i => .movdqaLoad (Fin.ofNat 16 i) (xmmSlot base i)

def XmmAt (m : Memory) (a : Word) (n : Nat) (xmm : Fin 16 → BitVec 128) : Prop :=
  ∀ i, i < n → load 128 m (a + BitVec.ofNat 64 (16 * i)) = xmm (Fin.ofNat 16 i)

theorem XmmAt.congr {m m' : Memory} {a : Word} {n : Nat} {xmm : Fin 16 → BitVec 128}
    (held : XmmAt m a n xmm) (few : n ≤ 16) (same : ∀ x, In a (16 * n) x → m' x = m x) :
    XmmAt m' a n xmm := by
  intro i inside
  rw [load_congr (by decide) fun x near => same x (near.shift (by omega) (by omega))]
  exact held i inside

theorem applyOps_xmmStores (base : Reg) (n : Nat) (s : State) (few : n ≤ 16)
    (aligned : (s.reg base).toNat % 16 = 0) :
    ∃ m, applyOps (xmmStores base n) s = some {s with mem := m} ∧
      XmmAt m (s.reg base) n s.xmm ∧ SameOutside (s.reg base) (16 * n) s.mem m := by
  induction n with
  | zero => exact ⟨s.mem,rfl,fun _ h => absurd h (by omega),.refl _ _ _⟩
  | succ n ih =>
    obtain ⟨m,done,held,frame⟩ := ih (by omega)
    have whole : (s.reg base + BitVec.ofNat 64 (16 * n)).toNat % 16 = 0 := by bv_omega
    have last := sameOutside_store m (s.reg base + BitVec.ofNat 64 (16 * n)) (s.xmm (Fin.ofNat 16 n))
    refine ⟨store m (s.reg base + BitVec.ofNat 64 (16 * n)) (s.xmm (Fin.ofNat 16 n)),?_,?_,?_⟩
    · rw [xmmStores,List.range_succ,List.map_append,applyOps_append]
      rw [xmmStores] at done
      rw [done]
      simp only [List.map_cons,List.map_nil,Option.bind_some,applyOps_cons,Op.apply,xmmSlot_addr,
        whole,if_true,applyOps_nil]
    · intro i inside
      by_cases same : i = n
      · subst i
        exact load_store m _ _ (by decide) (by decide)
      · rw [load_frame last (apart_shift _ (by omega) (by omega)).symm (by decide)]
        exact held i (by omega)
    · refine (frame.mono fun x inside => inside.widen (by omega)).trans (last.mono fun x inside => ?_)
      exact inside.shift (by omega) (by omega)

theorem applyOps_xmmLoads (base : Reg) (n : Nat) (s : State) (xmm : Fin 16 → BitVec 128)
    (few : n ≤ 16) (aligned : (s.reg base).toNat % 16 = 0) (held : XmmAt s.mem (s.reg base) n xmm) :
    applyOps (xmmLoads base n) s =
      some {s with xmm := fun x => if x.val < n then xmm x else s.xmm x} := by
  induction n with
  | zero => simp [xmmLoads]
  | succ n ih =>
    have whole : (s.reg base + BitVec.ofNat 64 (16 * n)).toNat % 16 = 0 := by bv_omega
    have done := ih (by omega) fun i inside => held i (by omega)
    rw [xmmLoads] at done
    rw [xmmLoads,List.range_succ,List.map_append,applyOps_append,done]
    simp only [List.map_cons,List.map_nil,Option.bind_some,applyOps_cons,Op.apply,xmmSlot_addr,
      whole,if_true,applyOps_nil,held n (by omega)]
    congr 2
    funext x
    have index : x = Fin.ofNat 16 n ↔ x.val = n := by
      rw [Fin.ext_iff]
      change x.val = n % 16 ↔ x.val = n
      omega
    by_cases last : x.val = n
    · rw [if_pos (index.mpr last),if_pos (by omega),index.mpr last]
    · rw [if_neg (mt index.mp last)]
      have bound : x.val < n + 1 ↔ x.val < n := by omega
      simp only [bound]

/-- The bytes of the stack from a stack pointer up to its end. -/
def InStack (top sp : Word) : Word → Prop := In sp (top - sp).toNat

theorem stackSize_lower {top a : Word} {k : Nat}
    (room : k + (top - (a + BitVec.ofNat 64 k)).toNat < 2 ^ 64) :
    (top - a).toNat = k + (top - (a + BitVec.ofNat 64 k)).toNat := by bv_omega

theorem InStack.lower {top a x : Word} {k : Nat} (inside : InStack top (a + BitVec.ofNat 64 k) x)
    (room : k + (top - (a + BitVec.ofNat 64 k)).toNat < 2 ^ 64) : InStack top a x := by
  rw [InStack,stackSize_lower room]
  exact In.shift inside (Nat.le_refl _) (Nat.le_of_lt room)

theorem inStack_below {top a x : Word} {j n k : Nat} (inside : In (a + BitVec.ofNat 64 j) n x)
    (fits : j + n ≤ k) (room : k + (top - (a + BitVec.ofNat 64 k)).toNat < 2 ^ 64) :
    InStack top a x := by
  rw [InStack,stackSize_lower room]
  exact In.shift inside (by omega) (Nat.le_of_lt room)

theorem InStack.apart {top a : Word} {j n k : Nat} (fits : j + n ≤ k)
    (room : k + (top - (a + BitVec.ofNat 64 k)).toNat < 2 ^ 64) :
    ∀ x, In (a + BitVec.ofNat 64 j) n x → ¬InStack top (a + BitVec.ofNat 64 k) x :=
  apart_shift a (by omega) (by omega)

def calleeSaved : List Reg := [.rbx,.rbp,.r12,.r13,.r14,.r15]

/-- A function entered in one state has returned in the other, as the calling
convention allows: it may have changed every caller-saved register, the flags
and all memory except the stack at and above its own stack pointer. -/
structure AbiReturn (top : Word) (s t : State) : Prop where
  rip : t.rip = load 64 s.mem (s.reg .rsp)
  rsp : t.reg .rsp = s.reg .rsp + 8
  saved : ∀ r ∈ calleeSaved, t.reg r = s.reg r
  stack : ∀ x, InStack top (s.reg .rsp) x → t.mem x = s.mem x

end SelfPropelled.Machine
