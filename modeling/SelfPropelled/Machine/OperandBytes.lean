import Mathlib.Tactic.IntervalCases
import SelfPropelled.Machine.Decode

/-! The bytes of a ModRM operand: what follows them does not matter, and what they can be by
the operand they are read as. -/

namespace SelfPropelled.Machine

theorem takeBytes_sound {n : Nat} {bs taken : List Byte} (read : takeBytes n bs = some taken) :
    taken.length = n ∧ ∃ rest, bs = taken ++ rest := by
  induction n generalizing bs taken with
  | zero =>
    cases read
    exact ⟨rfl,bs,rfl⟩
  | succ n ih =>
    cases bs with
    | nil => cases read
    | cons b bs =>
      obtain ⟨front,found,rfl⟩ := Option.map_eq_some_iff.mp read
      obtain ⟨size,rest,rfl⟩ := ih found
      exact ⟨by rw [List.length_cons,size],rest,rfl⟩

theorem immediate_append {n w : Nat} {bs : List Byte} {v : BitVec w} (read : immediate n w bs = some v)
    (rest : List Byte) : immediate n w (bs ++ rest) = some v := by
  obtain ⟨taken,found,rfl⟩ := Option.map_eq_some_iff.mp read
  obtain ⟨size,more,rfl⟩ := takeBytes_sound found
  rw [immediate,List.append_assoc,← size,takeBytes_append]
  rfl

theorem disp32_append {bs : List Byte} {d : Word} (read : disp32 bs = some d) (rest : List Byte) :
    disp32 (bs ++ rest) = some d := by
  obtain ⟨v,found,rfl⟩ := Option.map_eq_some_iff.mp read
  rw [disp32,immediate_append found]
  rfl

theorem displacement_append {mod : Nat} {bs : List Byte} {d : Word × Nat} (read : displacement mod bs = some d)
    (rest : List Byte) : displacement mod (bs ++ rest) = some d := by
  unfold displacement at read ⊢
  split at read
  · exact read
  · obtain ⟨v,found,rfl⟩ := Option.map_eq_some_iff.mp read
    obtain ⟨u,byte,rfl⟩ := Option.map_eq_some_iff.mp found
    rw [disp8,immediate_append byte]
    rfl
  · obtain ⟨v,found,rfl⟩ := Option.map_eq_some_iff.mp read
    rw [disp32_append found]
    rfl

theorem decodeSib_append {p : Prefix} {mod : Nat} {bs : List Byte} {r : MemRef × Nat}
    (read : decodeSib p mod bs = some r) (rest : List Byte) : decodeSib p mod (bs ++ rest) = some r := by
  cases bs with
  | nil => cases read
  | cons sib bs =>
    simp only [decodeSib,List.cons_append] at read ⊢
    split at read
    next plain =>
      obtain ⟨d,found,rfl⟩ := Option.map_eq_some_iff.mp read
      rw [if_pos plain,disp32_append found,Option.map_some]
    next based =>
      obtain ⟨d,found,rfl⟩ := Option.map_eq_some_iff.mp read
      rw [if_neg based,displacement_append found,Option.map_some]

theorem decodeModRM_append {p : Prefix} {bs : List Byte} {r : Nat × RM × Nat} (read : decodeModRM p bs = some r)
    (rest : List Byte) : decodeModRM p (bs ++ rest) = some r := by
  cases bs with
  | nil => cases read
  | cons m bs =>
    simp only [decodeModRM,List.cons_append] at read ⊢
    split at read
    next direct => rw [if_pos direct,read]
    next indirect =>
    split at read
    next sib =>
      obtain ⟨d,found,rfl⟩ := Option.map_eq_some_iff.mp read
      rw [if_neg indirect,if_pos sib,decodeSib_append found,Option.map_some]
    next other =>
    split at read
    next rip =>
      obtain ⟨d,found,rfl⟩ := Option.map_eq_some_iff.mp read
      rw [if_neg indirect,if_neg other,if_pos rip,disp32_append found,Option.map_some]
    next based =>
      obtain ⟨d,found,rfl⟩ := Option.map_eq_some_iff.mp read
      rw [if_neg indirect,if_neg other,if_neg based,displacement_append found,Option.map_some]

theorem toBytes_ofBytes (a b c d : Byte) : toBytes 4 (ofBytes 32 [a,b,c,d]) = [a,b,c,d] := by
  simp only [toBytes,ofBytes,List.cons.injEq,and_true]
  refine ⟨?_,?_,?_,?_⟩
  all_goals
    ext i inside
    interval_cases i <;> simp

theorem disp32_sound {bs : List Byte} {d : Word} (read : disp32 bs = some d) :
    ∃ (v : BitVec 32) (rest : List Byte), d = v.signExtend 64 ∧ bs = toBytes 4 v ++ rest := by
  obtain ⟨v,found,rfl⟩ := Option.map_eq_some_iff.mp read
  obtain ⟨taken,bytes,rfl⟩ := Option.map_eq_some_iff.mp found
  obtain ⟨size,rest,rfl⟩ := takeBytes_sound bytes
  match taken,size with
  | [a,b,c,d],_ => exact ⟨_,rest,rfl,by rw [toBytes_ofBytes]⟩

theorem decodeModRM_rip (p : Prefix) {m : Byte} {bs : List Byte} {d : Word} (mod : m.toNat / 64 = 0)
    (rm : m.toNat % 8 = 5) (disp : disp32 bs = some d) :
    decodeModRM p (m :: bs) = some (m.toNat / 8 % 8,.rip d,5) := by
  simp [decodeModRM,mod,rm,disp]

theorem decodeModRM_sib (p : Prefix) {m : Byte} {bs : List Byte} {ref : MemRef} {n : Nat}
    (mod : m.toNat / 64 = 0) (rm : m.toNat % 8 = 4) (sib : decodeSib p 0 bs = some (ref,n)) :
    decodeModRM p (m :: bs) = some (m.toNat / 8 % 8,.mem ref,1 + n) := by
  simp [decodeModRM,mod,rm,sib]

theorem decodeModRM_base (p : Prefix) {m : Byte} {bs : List Byte} (mod : m.toNat / 64 = 0)
    (notSib : m.toNat % 8 ≠ 4) (notRip : m.toNat % 8 ≠ 5) : decodeModRM p (m :: bs) =
      some (m.toNat / 8 % 8,.mem ⟨some (Reg.numbered (extend p.b (m.toNat % 8))),none,0⟩,1) := by
  simp [decodeModRM,mod,notSib,notRip,displacement]

/-- An operand read off its bytes: a register, an address relative to the next instruction, one
in a register, one without a base, or one with a base and more bytes. -/
theorem decodeModRM_sound {p : Prefix} {m : Byte} {bs : List Byte} {reg n : Nat} {rm : RM}
    (read : decodeModRM p (m :: bs) = some (reg,rm,n)) : reg = m.toNat / 8 % 8 ∧
      ((∃ r, rm = .reg r ∧ n = 1) ∨
      (∃ d, m.toNat / 64 = 0 ∧ m.toNat % 8 = 5 ∧ disp32 bs = some d ∧ rm = .rip d ∧ n = 5) ∨
      (m.toNat / 64 = 0 ∧ m.toNat % 8 ≠ 4 ∧ m.toNat % 8 ≠ 5 ∧
        rm = .mem ⟨some (Reg.numbered (extend p.b (m.toNat % 8))),none,0⟩ ∧ n = 1) ∨
      (∃ sib more d, m.toNat / 64 = 0 ∧ m.toNat % 8 = 4 ∧ bs = sib :: more ∧ sib.toNat % 8 = 5 ∧ disp32 more = some d ∧
        rm = .mem ⟨none,if extend p.x (sib.toNat / 8 % 8) = 4 then none
          else some (Reg.numbered (extend p.x (sib.toNat / 8 % 8)),sib.toNat / 64),d⟩ ∧ n = 6) ∨
      ∃ base index d, rm = .mem ⟨some base,index,d⟩ ∧ n ≠ 1 ∧ ∀ r scale, index = some (r,scale) → scale < 4) := by
  simp only [decodeModRM] at read
  split at read
  next direct =>
    cases read
    exact ⟨rfl,.inl ⟨_,rfl,rfl⟩⟩
  next indirect =>
  split at read
  next sibbed =>
    obtain ⟨⟨ref,k⟩,found,made⟩ := Option.map_eq_some_iff.mp read
    cases made
    refine ⟨rfl,.inr (.inr (.inr ?_))⟩
    cases bs with
    | nil => cases found
    | cons sib more =>
      simp only [decodeSib] at found
      split at found
      next plain =>
        obtain ⟨d,disp,made⟩ := Option.map_eq_some_iff.mp found
        cases made
        exact .inl ⟨sib,more,d,plain.1,sibbed,rfl,plain.2,disp,rfl,rfl⟩
      next based =>
        obtain ⟨d,disp,made⟩ := Option.map_eq_some_iff.mp found
        cases made
        refine .inr ⟨_,_,_,rfl,by omega,fun r scale some => ?_⟩
        split at some
        · cases some
        · cases some
          omega
  next other =>
  split at read
  next rip =>
    obtain ⟨d,disp,made⟩ := Option.map_eq_some_iff.mp read
    cases made
    exact ⟨rfl,.inr (.inl ⟨d,rip.1,rip.2,disp,rfl,rfl⟩)⟩
  next based =>
    obtain ⟨⟨d,k⟩,disp,made⟩ := Option.map_eq_some_iff.mp read
    cases made
    refine ⟨rfl,.inr (.inr ?_)⟩
    by_cases mod : m.toNat / 64 = 0
    · have notRip : m.toNat % 8 ≠ 5 := fun five => based ⟨mod,five⟩
      rw [mod,displacement,Option.some.injEq,Prod.mk.injEq] at disp
      obtain ⟨rfl,rfl⟩ := disp
      exact .inl ⟨mod,other,notRip,rfl,rfl⟩
    · refine .inr (.inr ⟨_,none,d,rfl,?_,fun r scale some => nomatch some⟩)
      have far : k = 1 ∨ k = 4 := by
        unfold displacement at disp
        split at disp
        · omega
        · obtain ⟨_,_,made⟩ := Option.map_eq_some_iff.mp disp
          exact .inl (Prod.mk.inj made).2.symm
        · obtain ⟨_,_,made⟩ := Option.map_eq_some_iff.mp disp
          exact .inr (Prod.mk.inj made).2.symm
      omega

/-- An address that is the same whatever the registers hold names none. -/
theorem MemRef.constant {base : Option Reg} {index : Option (Reg × Nat)} {d v : Word}
    (small : ∀ r scale, index = some (r,scale) → scale < 4) (same : ∀ reg, MemRef.addr ⟨base,index,d⟩ reg = v) :
    base = none ∧ index = none ∧ d = v := by
  have zero := same fun _ => 0
  have one := same fun _ => 1
  cases index with
  | none =>
    cases base with
    | none => exact ⟨rfl,rfl,by simpa [addr] using zero⟩
    | some r =>
      simp only [addr] at zero one
      bv_omega
  | some scaled =>
    obtain ⟨r,scale⟩ := scaled
    have bound := small r scale rfl
    exfalso
    cases base <;> simp only [addr] at zero one <;> interval_cases scale <;> bv_omega

end SelfPropelled.Machine
