import SelfPropelled.Snippet
import SelfPropelled.Transfer

/-! Transparency of the generated code for a direct call: payload wrappers run
in between, and the program does not notice. -/

namespace SelfPropelled
open Machine

/-- The stack at a call point: aligned as the convention says, with room for the
saved context, and apart from the snippet's stack-pointer field. -/
structure StackFor (top : Word) (snip : Snippet) (sp : Word) : Prop where
  aligned : AlignedFor snip.tailcall sp
  room : contextSize snip.indirect snip.tailcall + 8 + (top - sp).toNat < 2 ^ 64
  apart : ∀ x, InStack top (sp - BitVec.ofNat 64 (contextSize snip.indirect snip.tailcall)) x →
    ¬In snip.savedContextLoc 8 x

/-- The second state is as good as the first for the program: every argument,
result and callee-saved register, the flags and the stack are the same. -/
structure Transparent (top : Word) (s t : State) : Prop where
  reg : ∀ r ∈ savedRegs ++ calleeSaved, t.reg r = s.reg r
  xmm : ∀ x : Fin 16, x.val < 8 → t.xmm x = s.xmm x
  flags : t.flags = s.flags
  stack : ∀ x, InStack top (s.reg .rsp) x → t.mem x = s.mem x

/-- A payload wrapper is entered with its parameters and an aligned stack. -/
structure WrapperCalled (wrapper point payload : Word) (t : State) : Prop where
  rip : t.rip = wrapper
  rdi : t.reg .rdi = point
  rsi : payload ≠ 0 → t.reg .rsi = payload
  aligned : (t.reg .rsp + 8).toNat % 16 = 0

/-- What the wrapper's caller keeps meanwhile: the return address on top of the
stack and the saved context above it. -/
structure ContextKept (top ret : Word) (snip : Snippet) (s t : State) : Prop where
  rsp : s.reg .rsp = t.reg .rsp + BitVec.ofNat 64 (8 + contextSize snip.indirect snip.tailcall)
  returns : load 64 t.mem (t.reg .rsp) = ret
  context : ContextAt snip.indirect snip.tailcall s t.mem (t.reg .rsp + 8)
  saved : ∀ r ∈ calleeSaved, t.reg r = s.reg r
  stack : ∀ x, InStack top (s.reg .rsp) x → t.mem x = s.mem x

/-- The generated code up to a payload wrapper: the wrapper is entered, and what
it may not touch holds the context. -/
theorem callWrapper_enters {code : Memory} {top : Word} {snip : Snippet} {s : State}
    (wrapper payload : Word) (stack : StackFor top snip (s.reg .rsp))
    (held : CodeAt code s.rip (snip.callWrapper wrapper payload s.rip)) :
    ∃ t, Enters code s t ∧ WrapperCalled wrapper snip.point payload t ∧
      ContextKept top (s.rip + BitVec.ofNat 64 (snip.callWrapper wrapper payload s.rip).length)
        snip s t := by
  have room := stack.room
  let size := contextSize snip.indirect snip.tailcall
  let mid := s.reg .rsp - BitVec.ofNat 64 size
  have top' : s.reg .rsp = mid + BitVec.ofNat 64 size := (BitVec.sub_add_cancel _ _).symm
  rw [top'] at room
  have tight : size + (top - (mid + BitVec.ofNat 64 size)).toNat < 2 ^ 64 := by omega
  obtain ⟨u,save,saved⟩ := save_spec snip.indirect snip.tailcall snip.savedContextLoc s stack.aligned
    fun x inside => stack.apart x (inStack_below (j := 0) (n := size) (k := size)
      (by simpa using inside) (by omega) tight)
  obtain ⟨v,pass,passed⟩ := passParam_spec snip.point payload u
  obtain ⟨t,enters,called⟩ := emitCallAbs_enters (t := v)
    ((emitSave_assembles snip.indirect snip.tailcall snip.savedContextLoc).append
      (emitPassParam_assembles snip.point payload))
    (by rw [applyOps_append,save,Option.bind_some,pass]) held
  have here : u.reg .rsp = mid := by
    simp only [mid,size]
    rw [saved.rsp,BitVec.add_sub_cancel]
  have still : v.reg .rsp = mid := (passed.others .rsp (by decide) (by decide)).trans here
  have low : t.reg .rsp = mid - 8 := by rw [called.rsp,still]
  have down : mid = t.reg .rsp + BitVec.ofNat 64 8 := by
    rw [low]
    exact (BitVec.sub_add_cancel _ _).symm
  have up : s.reg .rsp = t.reg .rsp + BitVec.ofNat 64 (8 + size) := by rw [top',down,add_ofNat]
  have frame : SameOutside (t.reg .rsp) 8 v.mem t.mem := by
    have same := called.frame
    rwa [still,← low] at same
  have space : 8 + size + (top - (t.reg .rsp + BitVec.ofNat 64 (8 + size))).toNat < 2 ^ 64 := by
    rw [← up,top']
    omega
  refine ⟨t,enters,⟨called.rip,?_,fun given => ?_,?_⟩,up,called.returns,?_,?_,?_⟩
  · rw [called.others .rdi (by decide) (by decide),passed.rdi]
  · rw [called.others .rsi (by decide) (by decide),passed.rsi given]
  · have whole := saved.context.aligned
    rwa [here,down] at whole
  · have context := saved.context
    rw [here,down] at context
    refine context.congr fun x inside => ?_
    have kept := frame x fun other => apart_next (t.reg .rsp) (by omega) x other inside
    rw [kept,passed.mem]
  · intro r member
    have plain : ∀ q ∈ calleeSaved, q ≠ .rsp ∧ q ≠ .r11 ∧ q ≠ .rdi ∧ q ≠ .rsi ∧ q ≠ .rax := by decide
    obtain ⟨notSp,not11,notDi,notSi,notAx⟩ := plain r member
    rw [called.others r notSp not11,passed.others r notDi notSi,saved.others r notSp notAx]
  · intro x inside
    have kept := saved.frame x
      (fun other => by
        rw [here,down] at other
        rw [up] at inside
        exact InStack.apart (k := 8 + size) (Nat.le_refl _) space x other inside)
      (stack.apart x (by
        rw [top'] at inside
        exact inside.lower tight))
    have called := frame x fun other => by
      rw [up] at inside
      exact InStack.apart (j := 0) (n := 8) (k := 8 + size) (by omega) space x
        (by simpa using other) inside
    rw [called,passed.mem,kept]

/-- Once the wrapper has returned, the restore sequence brings the caller back. -/
theorem ContextKept.restored {top ret : Word} {snip : Snippet} {s t r : State}
    (kept : ContextKept top ret snip s t) (stack : StackFor top snip (s.reg .rsp))
    (returned : AbiReturn top t r) :
    r.rip = ret ∧ ∃ u, applyOps (restoreOps snip.indirect snip.tailcall) r = some u ∧
      Transparent top s u ∧ u.reg .rsp = s.reg .rsp := by
  have space := stack.room
  rw [kept.rsp] at space
  have context : ContextAt snip.indirect snip.tailcall s r.mem (r.reg .rsp) := by
    rw [returned.rsp]
    refine kept.context.congr fun x inside => returned.stack x ?_
    exact inStack_below (j := 8) inside (Nat.le_refl _) (by omega)
  obtain ⟨u,run,restored⟩ := restore_spec snip.indirect snip.tailcall s r context
  refine ⟨returned.rip.trans kept.returns,u,run,⟨?_,restored.xmm,restored.flags,?_⟩,?_⟩
  · intro q member
    by_cases popped : q ∈ savedRegs ++ indirectRegs snip.indirect
    · exact restored.saved q popped
    · have callee : q ∈ calleeSaved := by
        rcases List.mem_append.mp member with arg | callee
        · exact absurd (List.mem_append_left _ arg) popped
        · exact callee
      have notSp : q ≠ .rsp := by rintro rfl; exact absurd callee (by decide)
      rw [restored.others q notSp popped,returned.saved q callee,kept.saved q callee]
  · intro x inside
    rw [restored.mem,returned.stack x ?_,kept.stack x inside]
    rw [kept.rsp] at inside
    exact inside.lower (by omega)
  · rw [restored.rsp,returned.rsp,kept.rsp]
    exact add_ofNat _ 8 _

theorem Transparent.jumped {top trg : Word} {s u v : State} (same : Transparent top s u)
    (sp : u.reg .rsp = s.reg .rsp) (jumped : Jumped trg u v)
    (room : 8 + (top - s.reg .rsp).toNat < 2 ^ 64) : Transparent top s v := by
  refine ⟨fun r member => ?_,fun x inside => ?_,?_,fun x inside => ?_⟩
  · rw [jumped.reg,same.reg r member]
  · rw [jumped.xmm,same.xmm x inside]
  · rw [jumped.flags,same.flags]
  · have kept := jumped.frame x fun other => by
      rw [sp] at other
      simp only [In,InStack] at other inside
      bv_omega
    rw [kept,same.stack x inside]

theorem Transparent.called {top callee ret : Word} {s u v : State} (same : Transparent top s u)
    (sp : u.reg .rsp = s.reg .rsp) (called : Called callee ret u v)
    (room : 8 + (top - s.reg .rsp).toNat < 2 ^ 64) : Transparent top s v := by
  refine ⟨fun r member => ?_,fun x inside => ?_,?_,fun x inside => ?_⟩
  · have plain : ∀ q ∈ savedRegs ++ calleeSaved, q ≠ .rsp ∧ q ≠ .r11 := by decide
    rw [called.others r (plain r member).1 (plain r member).2,same.reg r member]
  · rw [called.xmm,same.xmm x inside]
  · rw [called.flags,same.flags]
  · have kept := called.frame x fun other => by
      rw [sp] at other
      simp only [In,InStack] at other inside
      bv_omega
    rw [kept,same.stack x inside]

/-- The exit part, from the state a callee returned in: the exit wrapper is
called, and then control is at the original return address. -/
def ExitReturns (code : Memory) (top : Word) (snip : Snippet) (s : State) : Prop :=
  ∃ t, Enters code s t ∧ WrapperCalled snip.wrapperExit snip.point snip.exit t ∧
    ∀ r, AbiReturn top t r → ∃ u, Enters code r u ∧ u.rip = snip.retAddr ∧
      u.reg .rsp = s.reg .rsp ∧ Transparent top s u

theorem StackFor.spare {top sp : Word} {snip : Snippet} (stack : StackFor top snip sp) :
    8 + (top - sp).toNat < 2 ^ 64 := by
  have room := stack.room
  omega

/-- A payload call runs its wrapper, and its caller is restored in front of the
code that follows. -/
theorem aroundWrapper_enters {code : Memory} {top : Word} {snip : Snippet} {s : State}
    {rest : List Byte} (wrapper payload : Word) (stack : StackFor top snip (s.reg .rsp))
    (held : CodeAt code s.rip (snip.aroundWrapper wrapper payload s.rip ++ rest)) :
    ∃ t, Enters code s t ∧ WrapperCalled wrapper snip.point payload t ∧
      ∀ r, AbiReturn top t r → ∃ u, applyOps (restoreOps snip.indirect snip.tailcall) r = some u ∧
        Transparent top s u ∧ u.reg .rsp = s.reg .rsp ∧
        CodeAt code r.rip (emitRestore snip.indirect snip.tailcall ++ rest) ∧
        s.rip + BitVec.ofNat 64 (snip.aroundWrapper wrapper payload s.rip).length =
          r.rip + BitVec.ofNat 64 (emitRestore snip.indirect snip.tailcall).length := by
  simp only [Snippet.aroundWrapper,List.append_assoc] at held
  obtain ⟨t,enters,called,kept⟩ := callWrapper_enters wrapper payload stack held.left
  refine ⟨t,enters,called,fun r returned => ?_⟩
  obtain ⟨back,u,run,same,sp⟩ := kept.restored stack returned
  refine ⟨u,run,same,sp,?_,?_⟩
  · rw [back]
    exact held.right
  · rw [back,add_ofNat,Snippet.aroundWrapper,List.length_append]

theorem emitExit_returns {code : Memory} {top : Word} {snip : Snippet} {s : State}
    (stack : StackFor top snip (s.reg .rsp)) (held : CodeAt code s.rip (snip.emitExit s.rip)) :
    ExitReturns code top snip s := by
  obtain ⟨t,enters,called,after⟩ := aroundWrapper_enters snip.wrapperExit snip.exit stack held
  refine ⟨t,enters,called,fun r returned => ?_⟩
  obtain ⟨v,run,same,sp,there,next⟩ := after r returned
  rw [next] at there
  obtain ⟨u,leaves,jumped⟩ := emitJumpAbs_enters (emitRestore_assembles _ _) run there
  have upper : u.reg .rsp = s.reg .rsp := by rw [jumped.reg,sp]
  exact ⟨u,leaves,jumped.rip,upper,same.jumped sp jumped stack.spare⟩

/-- The callee is reached as the call point left the machine. A tail call finds
the original stack pointer; another call finds a return address inside the
code, where the exit part takes over once the callee has returned. -/
def CalleeReached (code : Memory) (top : Word) (snip : Snippet) (callee p : Word) (length : Nat)
    (s t : State) : Prop :=
  t.rip = callee ∧ Transparent top s t ∧
    if snip.tailcall then t.reg .rsp = s.reg .rsp
    else t.reg .rsp = s.reg .rsp - 8 ∧
      (∃ i < length, load 64 t.mem (t.reg .rsp) = p + BitVec.ofNat 64 i) ∧
      ∀ r : State, r.rip = load 64 t.mem (t.reg .rsp) → r.reg .rsp = t.reg .rsp + 8 →
        ExitReturns code top snip r

/-- What the code of a direct call does from the call point on. -/
def DirectCallRuns (code : Memory) (top : Word) (snip : Snippet) (callee p : Word) (length : Nat)
    (s : State) : Prop :=
  ∃ t, Enters code s t ∧ WrapperCalled snip.wrapperEntry snip.point snip.entry t ∧
    ∀ r, AbiReturn top t r → ∃ u, Enters code r u ∧ CalleeReached code top snip callee p length s u

theorem emitOrig_direct {lib : ArchX86} {snip : Snippet} {callee p : Word} {orig : List Byte}
    (direct : snip.func = some callee) (made : snip.emitOrig lib p = some orig) :
    (snip.tailcall = true ∧ orig = emitJumpAbs callee p false) ∨
    (snip.tailcall = false ∧ orig = emitCallAbs callee p ++
      snip.emitExit (p + BitVec.ofNat 64 (emitCallAbs callee p).length)) := by
  simp only [Snippet.emitOrig,direct] at made
  split at made
  next tail =>
    split at made
    · exact .inl ⟨tail,(Option.some.inj made).symm⟩
    · cases made
  next plain =>
    split at made
    · cases made
    · exact .inr ⟨Bool.eq_false_iff.mpr plain,(Option.some.inj made).symm⟩

private theorem emitExit_nonempty (snip : Snippet) (p : Word) : 0 < (snip.emitExit p).length := by
  simp only [Snippet.emitExit,Snippet.aroundWrapper,emitRestore,List.length_append,List.length_cons]
  omega

theorem emitPatch_runs {lib : ArchX86} {snip : Snippet} {callee : Word} {bytes : List Byte}
    {code : Memory} {top : Word} {s : State} (direct : snip.func = some callee)
    (built : snip.emitPatch lib s.rip = some bytes) (held : CodeAt code s.rip bytes)
    (stack : StackFor top snip (s.reg .rsp)) :
    DirectCallRuns code top snip callee s.rip bytes.length s := by
  obtain ⟨orig,made,joined⟩ := Option.bind_eq_some_iff.mp built
  obtain rfl := Option.some.inj joined
  obtain ⟨t,enters,called,after⟩ := aroundWrapper_enters snip.wrapperEntry snip.entry stack held
  refine ⟨t,enters,called,fun r returned => ?_⟩
  obtain ⟨v,run,same,sp,there,next⟩ := after r returned
  rw [next] at made
  have spare := stack.spare
  rcases emitOrig_direct direct made with ⟨tail,rfl⟩ | ⟨plain,rfl⟩
  · obtain ⟨u,leaves,jumped⟩ := emitJumpAbs_enters (emitRestore_assembles _ _) run there
    refine ⟨u,leaves,jumped.rip,same.jumped sp jumped spare,?_⟩
    rw [if_pos tail,jumped.reg,sp]
  · have callHere := there
    rw [← List.append_assoc] at callHere
    obtain ⟨u,leaves,entered⟩ := emitCallAbs_enters (emitRestore_assembles _ _) run callHere.left
    have down : u.reg .rsp = s.reg .rsp - 8 := by rw [entered.rsp,sp]
    have exitAt := callHere.right
    rw [List.length_append,← add_ofNat] at exitAt
    have ret := entered.returns
    rw [List.length_append,← add_ofNat] at ret
    refine ⟨u,leaves,entered.rip,same.called sp entered spare,?_⟩
    rw [if_neg (by simp [plain])]
    refine ⟨down,⟨(snip.aroundWrapper snip.wrapperEntry snip.entry s.rip).length +
      (emitCallAbs callee (r.rip + BitVec.ofNat 64
        (emitRestore snip.indirect snip.tailcall).length)).length,?_,?_⟩,fun q back up => ?_⟩
    · have more := emitExit_nonempty snip (s.rip + BitVec.ofNat 64
        (snip.aroundWrapper snip.wrapperEntry snip.entry s.rip).length + BitVec.ofNat 64
        (emitCallAbs callee (s.rip + BitVec.ofNat 64
          (snip.aroundWrapper snip.wrapperEntry snip.entry s.rip).length)).length)
      rw [← next]
      simp only [List.length_append]
      omega
    · rw [ret,← next,add_ofNat]
    · rw [ret] at back
      rw [← back] at exitAt
      refine emitExit_returns ?_ exitAt
      rw [up,down,BitVec.sub_add_cancel]
      exact stack

/-- Snippet transparency for direct calls: `BuildBlob` without a relocated block
generates code that runs both payload wrappers around the callee, at any
address, while the program sees every register and the stack unchanged. -/
theorem generate_transparent (lib : ArchX86) (snip : Snippet) (callee p : Word)
    (direct : snip.func = some callee) (returns : snip.retAddr = 0 ↔ snip.tailcall = true) :
    ∃ bytes, snip.generate lib false p = some bytes ∧
      ∀ (code : Memory) (top : Word) (s : State), CodeAt code p bytes → s.rip = p →
        StackFor top snip (s.reg .rsp) → DirectCallRuns code top snip callee p bytes.length s := by
  have total : ∀ q, ∃ orig, snip.emitOrig lib q = some orig := by
    intro q
    simp only [Snippet.emitOrig,direct]
    by_cases tail : snip.tailcall = true
    · exact ⟨_,by rw [if_pos tail,if_pos (returns.mpr tail)]⟩
    · exact ⟨_,by rw [if_neg tail,if_neg (mt returns.mp tail)]⟩
  obtain ⟨orig,made⟩ := total (p + BitVec.ofNat 64 (snip.aroundWrapper snip.wrapperEntry snip.entry p).length)
  have built : snip.emitPatch lib p =
      some (snip.aroundWrapper snip.wrapperEntry snip.entry p ++ orig) := by
    rw [Snippet.emitPatch,made]
    rfl
  refine ⟨snip.aroundWrapper snip.wrapperEntry snip.entry p ++ orig,?_,
    fun code top s held here stack => ?_⟩
  · simp [Snippet.generate,built]
  · subst here
    exact emitPatch_runs direct built held stack

def directCallPoint : Snippet where
  func := some 0x402000
  point := 0x10
  tailcall := false
  retAddr := 0x401005
  block := ⟨[],0x401000,⟨[],false,false,[],[],[],[],[],none⟩⟩
  entry := 0x20
  exit := 0x30
  savedContextLoc := 0x600000
  wrapperEntry := 0x7f0000001000
  wrapperExit := 0x7f0000002000

theorem directCallPoint_stack : StackFor 0x7ffffffff000 directCallPoint 0x7fffffffe000 where
  aligned := by unfold AlignedFor; decide
  room := by decide
  apart := by
    intro x inside field
    have size : contextSize directCallPoint.indirect directCallPoint.tailcall = 208 := by decide
    have low : InStack 0x7ffffffff000 (0x7fffffffe000 - 208) x := by rwa [size] at inside
    have cell : In 0x600000 8 x := field
    simp only [InStack,In] at low cell
    bv_omega

theorem generate_transparent_directCallPoint :
    ∃ bytes, directCallPoint.generate ⟨isDisp32,fun _ => false,fun _ => 0⟩ false 0x403000 = some bytes ∧
      DirectCallRuns (imageOf 0x403000 bytes) 0x7ffffffff000 directCallPoint 0x402000 0x403000
        bytes.length ⟨fun r => if r = .rsp then 0x7fffffffe000 else 0,fun _ => 0,
          ⟨false,false,false,false,false,false⟩,fun _ => 0,0x403000⟩ := by
  obtain ⟨bytes,built,runs⟩ := generate_transparent ⟨isDisp32,fun _ => false,fun _ => 0⟩
    directCallPoint 0x402000 0x403000 rfl (by decide)
  have short : bytes.length ≤ 2 ^ 64 := by
    have length : (directCallPoint.generate ⟨isDisp32,fun _ => false,fun _ => 0⟩ false 0x403000).map
        List.length = some 386 := by decide +kernel
    rw [built,Option.map_some,Option.some.injEq] at length
    omega
  exact ⟨bytes,built,runs _ _ _ (codeAt_imageOf _ _ short) rfl directCallPoint_stack⟩

end SelfPropelled
