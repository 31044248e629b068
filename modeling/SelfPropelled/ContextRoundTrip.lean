import SelfPropelled.ContextSwitch
import SelfPropelled.Machine.Frame

/-! Save, payload call, restore: the emitted bytes bring the machine back, and
the areas they use on the stack do not collide. -/

namespace SelfPropelled
open Machine

/-- An aligned move finds an aligned address. -/
def MovdqaAligned : Op → State → Prop
  | .movdqaStore m _, s | .movdqaLoad _ m, s => (m.addr s.reg).toNat % 16 = 0
  | _, _ => True

/-- An aligned store writes inside the 128 bytes at `a`. -/
def MovdqaWithin (a : Word) : Op → State → Prop
  | .movdqaStore m _, s => ∀ x, In (m.addr s.reg) 16 x → In a 128 x
  | _, _ => True

/-- Code with an aligned move at another address faults. -/
theorem applyOps_aligned {ops : List Op} {s t : State} (done : applyOps ops s = some t) :
    Along MovdqaAligned ops s := by
  induction ops generalizing s with
  | nil => trivial
  | cons op rest ih =>
    obtain ⟨u,first,more⟩ := Option.bind_eq_some_iff.mp done
    refine ⟨?_,fun v other => ?_⟩
    · cases op with
      | movdqaStore m x | movdqaLoad x m =>
        by_contra misaligned
        simp only [MovdqaAligned] at misaligned
        simp [Op.apply,misaligned] at first
      | _ => trivial
    · rw [first] at other
      cases other
      exact ih more

private theorem movdqaWithin_plain {a : Word} {ops : List Op}
    (plain : ∀ op ∈ ops, ∀ m x, op ≠ .movdqaStore m x) (s : State) : Along (MovdqaWithin a) ops s := by
  refine along_of_forall (fun op member t => ?_) s
  cases op with
  | movdqaStore m x => exact absurd rfl (plain _ member m x)
  | _ => trivial

/-- Where the XMM registers go: 16 bytes above the stack pointer the sequence ends with. -/
theorem saveOps_movdqaWithin (indirect isTailCall : Bool) (loc : Word) (s : State)
    (apart : Apart (s.reg .rsp - BitVec.ofNat 64 (wordsSize indirect)) (wordsSize indirect) loc 8) :
    Along (MovdqaWithin (s.reg .rsp - BitVec.ofNat 64 (contextSize indirect isTailCall) + 16))
      (saveOps indirect isTailCall loc) s := by
  obtain ⟨t,general,saved⟩ := saveGeneral_spec indirect loc s apart
  refine Along.append (movdqaWithin_plain (fun op member m x same => ?_) s) fun v done => ?_
  · subst same
    cases indirect <;> simp [savedRegs,flagOps,saveSpOps,indirectRegs] at member
  · rw [general] at done
    cases done
    have front : ∀ w, applyOps ([.lea .rsp ⟨some .rsp,none,-BitVec.ofNat 64 (xmmRoom isTailCall)⟩] ++
        indexOps) t = some w → w.reg .rax =
          s.reg .rsp - BitVec.ofNat 64 (contextSize indirect isTailCall) + 16 + BitVec.ofNat 64 0 := by
      intro w ran
      simp only [List.cons_append,List.nil_append,applyOps_cons,Op.apply,Option.bind_some,
        applyOps_indexOps,Option.some.injEq] at ran
      subst ran
      have size : s.reg .rsp - BitVec.ofNat 64 (contextSize indirect isTailCall) =
          t.reg .rsp - BitVec.ofNat 64 (xmmRoom isTailCall) - 8 := by
        rw [saved.rsp,contextSize,Nat.add_assoc,BitVec.ofNat_add (n := 64) (wordsSize indirect),
          BitVec.ofNat_add (n := 64) (xmmRoom isTailCall)]
        bv_omega
      simp only [State.set_reg,if_true,MemRef.addr,size]
      bv_omega
    refine ((movdqaWithin_plain (fun op member m x same => ?_) t).append fun w ran => ?_).append
      fun w _ => movdqaWithin_plain (by simp) w
    · subst same
      simp [indexOps] at member
    · refine (confined_xmmStores .rax 8 (front w ran) (n := 128) (by decide) (by decide)).mono ?_
      intro op _ t confined
      cases op with
      | movdqaStore m x => exact confined.2
      | _ => trivial

/-- The save sequence before a payload call: where the stack pointer and the XMM
area are, and that the area meets neither a pushed slot nor the caller's stack. -/
structure SavedContext (indirect isTailCall : Bool) (top loc : Word) (s u : State) : Prop where
  rsp : u.reg .rsp = s.reg .rsp - BitVec.ofNat 64 (contextSize indirect isTailCall)
  callAligned : (u.reg .rsp).toNat % 16 = 0
  movdqaAligned : Along MovdqaAligned (saveOps indirect isTailCall loc) s
  area : Along (MovdqaWithin (u.reg .rsp + 16)) (saveOps indirect isTailCall loc) s
  slots : Apart (u.reg .rsp + 16) 128 (s.reg .rsp - BitVec.ofNat 64 (wordsSize indirect)) (wordsSize indirect)
  lastSlot : Apart (u.reg .rsp + 16) 128 (u.reg .rsp) 8
  stack : ∀ x, In (u.reg .rsp + 16) 128 x → ¬InStack top (s.reg .rsp) x

/-- Any payload call that obeys the calling convention, back at its caller. -/
structure PayloadReturned (top : Word) (u r : State) : Prop where
  rsp : r.reg .rsp = u.reg .rsp
  saved : ∀ q ∈ calleeSaved, r.reg q = u.reg q
  stack : ∀ x, InStack top (u.reg .rsp) x → r.mem x = u.mem x

/-- The machine is back where it started, as far as this snippet kind saves it. -/
structure BroughtBack (indirect isTailCall : Bool) (s r t : State) : Prop where
  rsp : t.reg .rsp = s.reg .rsp
  saved : ∀ q ∈ savedRegs ++ indirectRegs indirect, t.reg q = s.reg q
  xmm : ∀ x : Fin 16, x.val < 8 → t.xmm x = s.xmm x
  flags : t.flags = s.flags
  movdqaAligned : Along MovdqaAligned (restoreOps indirect isTailCall) r

/-- Round trip of the context, for all four snippet kinds. -/
theorem context_round_trip (indirect isTailCall : Bool) (loc top : Word) (s : State) (code : Memory)
    (aligned : AlignedFor isTailCall (s.reg .rsp))
    (room : contextSize indirect isTailCall + (top - s.reg .rsp).toNat < 2 ^ 64)
    (field : ∀ x, InStack top (s.reg .rsp - BitVec.ofNat 64 (contextSize indirect isTailCall)) x →
      ¬In loc 8 x)
    (held : CodeAt code s.rip (emitSave indirect isTailCall loc)) :
    ∃ u, Falls code s u ∧
      u.rip = s.rip + BitVec.ofNat 64 (emitSave indirect isTailCall loc).length ∧
      SavedContext indirect isTailCall top loc s u ∧
      ∀ r, PayloadReturned top u r → CodeAt code r.rip (emitRestore indirect isTailCall) →
        ∃ t, Falls code r t ∧
          t.rip = r.rip + BitVec.ofNat 64 (emitRestore indirect isTailCall).length ∧
          BroughtBack indirect isTailCall s r t := by
  have words := wordsSize_le indirect
  have bigRoom := xmmRoom_le isTailCall
  let size := contextSize indirect isTailCall
  have split : size = xmmRoom isTailCall + 8 + wordsSize indirect := by
    simp only [size,contextSize]
    omega
  have bound : size ≤ 280 := contextSize_le indirect isTailCall
  let low := s.reg .rsp - BitVec.ofNat 64 size
  have up : s.reg .rsp = low + BitVec.ofNat 64 size := (BitVec.sub_add_cancel _ _).symm
  have tight := room
  rw [up] at tight
  have fieldApart : Apart low size loc 8 := fun x inside => field x
    (inStack_below (j := 0) (n := size) (k := size) (by simpa using inside) (by omega) tight)
  obtain ⟨u,save,saved⟩ := save_spec indirect isTailCall loc s aligned fieldApart
  have bottom : u.reg .rsp = low := by
    have sum := saved.rsp
    rw [up] at sum
    exact ((BitVec.add_left_inj _).mp sum).symm
  have mid : s.reg .rsp - BitVec.ofNat 64 (wordsSize indirect) =
      low + BitVec.ofNat 64 (xmmRoom isTailCall + 8) := by
    rw [up,split]
    bv_omega
  have area : low + 16 = low + BitVec.ofNat 64 16 := rfl
  refine ⟨_,.straight (emitSave_assembles indirect isTailCall loc) held save,rfl,?_,fun r back here => ?_⟩
  · refine ⟨bottom,saved.context.aligned,applyOps_aligned save,?_,?_,?_,fun x inside => ?_⟩
    · simp only [State.at_reg,bottom]
      refine saveOps_movdqaWithin indirect isTailCall loc s (fieldApart.mono (fun x inside => ?_)
        fun _ other => other)
      rw [mid] at inside
      exact inside.shift (by omega) (by omega)
    · rw [State.at_reg,bottom,mid,area]
      exact apart_shift low (by omega) (by omega)
    · rw [State.at_reg,bottom]
      exact (apart_shift low (i := 0) (n := 8) (j := 16) (by decide) (by decide)).symm.mono
        (fun _ inside => inside) fun x other => by simpa using other
    · rw [State.at_reg,bottom,area] at inside
      rw [up]
      exact InStack.apart (by omega) tight x inside
  · have context : ContextAt indirect isTailCall s r.mem (r.reg .rsp) := by
      rw [back.rsp,State.at_reg]
      refine saved.context.congr fun x inside => ?_
      rw [back.stack x ?_,State.at_mem]
      rw [State.at_reg,bottom]
      rw [bottom] at inside
      exact inStack_below (j := 0) (n := size) (k := size) (by simpa using inside) (by omega) tight
    obtain ⟨t,restore,restored⟩ := restore_spec indirect isTailCall s r context
    refine ⟨_,.straight (emitRestore_assembles indirect isTailCall) here restore,rfl,?_⟩
    refine ⟨?_,restored.saved,restored.xmm,restored.flags,applyOps_aligned restore⟩
    rw [State.at_reg,restored.rsp,back.rsp,State.at_reg,bottom,up]

/-- An indirect call point, in front of its save sequence. -/
def indirectCallPoint : State where
  reg r := if r = .rsp then 0x7fffffffe000 else 0
  xmm _ := 0
  flags := ⟨true,false,true,false,true,true⟩
  mem _ := 0
  rip := 0x403000

theorem context_round_trip_indirectCallPoint :
    ∃ u, Falls (imageOf 0x403000 (emitSave true false 0x600000)) indirectCallPoint u ∧
      SavedContext true false 0x7ffffffff000 0x600000 indirectCallPoint u := by
  have size : contextSize true false = 272 := by decide
  obtain ⟨u,runs,_,saved,_⟩ := context_round_trip true false 0x600000 0x7ffffffff000 indirectCallPoint
    (imageOf 0x403000 (emitSave true false 0x600000)) (by unfold AlignedFor; decide)
    (by decide) (fun x inside field => by
      have low : InStack 0x7ffffffff000 (0x7fffffffe000 - 272) x := by rwa [size] at inside
      simp only [InStack,In] at low field
      bv_omega) (codeAt_imageOf _ _ (by decide +kernel))
  exact ⟨u,runs,saved⟩

end SelfPropelled
