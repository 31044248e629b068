import SelfPropelled.BlobHistory

/-! Whether a blob fits the buffer it is written to. Each worker asks for enough, but one
that keeps the buffer of a given-up attempt writes to what that attempt asked for. -/

namespace SelfPropelled
open Machine

def passParamSize (payload : Word) : Nat := if payload = 0 then 10 else 20

def callAbsSize (callee p : Word) : Nat := if isDisp32 (callee - (p + 5)) then 5 else 13

def jumpSize (trg p : Word) : Nat := if isDisp32 (trg - (p + 5)) then 5 else jumpAbsSize

/-- A relocated instruction. A PC-relative one is cut after its opcode and gets a ModRM byte
and a displacement in any case. -/
def relocSize (lib : ArchX86) (a : Word) (insn : Instruction) (usePc : Bool) (p : Word) : Nat :=
  if usePc then min (opcodeSize lib insn.raw) insn.raw.length +
    (insn.raw.length - (opcodeSize lib insn.raw + 5)) + 5 + growth lib a insn p
  else insn.raw.length

def blockSize (lib : ArchX86) (last : Word) : List (Word × Instruction) → Word → Nat
  | [], _ => 0
  | (a,insn) :: rest, p =>
    if a = last then blockSize lib last rest p
    else
      let size := relocSize lib a insn (pcPath insn = some true) p
      size + blockSize lib last rest (p + BitVec.ofNat 64 size)

namespace Snippet

def aroundSize (snip : Snippet) (wrapper payload p : Word) : Nat :=
  let before := (if snip.indirect then 98 else 84) + passParamSize payload
  before + callAbsSize wrapper (p + BitVec.ofNat 64 before) + if snip.indirect then 85 else 71

def exitSize (snip : Snippet) (p : Word) : Nat :=
  let around := snip.aroundSize snip.wrapperExit snip.exit p
  around + jumpSize snip.retAddr (p + BitVec.ofNat 64 around)

def origSize (lib : ArchX86) (snip : Snippet) (p : Word) : Nat :=
  let exits (call : Nat) := call + snip.exitSize (p + BitVec.ofNat 64 call)
  match snip.func with
  | some func => if snip.tailcall then jumpSize func p else exits (callAbsSize func p)
  | none =>
    let insn := snip.block.origCallInsn
    exits (relocSize lib snip.block.last insn ((insn.controlFlowTarget.map (·.usePC)).getD false) p)

def patchSize (lib : ArchX86) (snip : Snippet) (p : Word) : Nat :=
  let around := snip.aroundSize snip.wrapperEntry snip.entry p
  around + snip.origSize lib (p + BitVec.ofNat 64 around)

/-- How many bytes are generated at `p`. -/
def codeSize (lib : ArchX86) (snip : Snippet) (reloc : Bool) (p : Word) : Nat :=
  let moved := if reloc then blockSize lib snip.block.last snip.block.insns p else 0
  moved + snip.patchSize lib (p + BitVec.ofNat 64 moved)

end Snippet

theorem length_passParam (point payload : Word) : (emitPassParam point payload).length = passParamSize payload := by
  simp only [emitPassParam,emitMovImm64Rdi,emitMovImm64Rsi,passParamSize]
  split <;> simp_all

theorem length_callAbs (callee p : Word) : (emitCallAbs callee p).length = callAbsSize callee p := by
  simp only [emitCallAbs,callAbsSize]
  split <;> simp

theorem length_jump (trg p : Word) : (emitJumpAbs trg p false).length = jumpSize trg p := by
  simp only [emitJumpAbs,jumpSize,Bool.not_false,Bool.and_true]
  split <;> simp [length_emitPushImm64,jumpAbsSize]

theorem length_reloc {lib : ArchX86} {a p : Word} {insn : Instruction} {usePc : Bool} {bs : List Byte}
    (made : relocInsnInternal lib a insn usePc p = some bs) : bs.length = relocSize lib a insn usePc p := by
  cases usePc with
  | false =>
    obtain rfl : insn.raw = bs := by simpa [relocInsnInternal] using made
    rfl
  | true => exact length_relocInsnInternal made

theorem length_block {lib : ArchX86} {insns : List (Word × Instruction)} {last p : Word} {moved : List Byte}
    (made : relocBlock lib insns last p = some moved) : moved.length = blockSize lib last insns p := by
  induction insns generalizing p moved with
  | nil =>
    obtain rfl : [] = moved := by simpa [relocBlock] using made
    rfl
  | cons i rest ih =>
    obtain ⟨a,insn⟩ := i
    simp only [relocBlock,Option.bind_eq_bind,Option.bind_eq_some_iff,Option.pure_def,Option.some.injEq] at made
    obtain ⟨first,one,others,more,rfl⟩ := made
    rw [List.length_append,ih more,blockSize]
    by_cases final : a = last
    · rw [relocInsn,if_pos final] at one
      obtain rfl := Option.some.inj one
      rw [if_pos final,List.length_nil,show BitVec.ofNat 64 0 = 0#64 from rfl,BitVec.add_zero,Nat.zero_add]
    · simp only [relocInsn,if_neg final,Option.bind_eq_bind,Option.bind_eq_some_iff] at one
      obtain ⟨usePc,path,one⟩ := one
      have size := length_reloc one
      have its : decide (pcPath insn = some true) = usePc := by cases usePc <;> simp [path]
      rw [if_neg final]
      dsimp only
      rw [its,← size]

namespace Snippet

theorem length_around (snip : Snippet) (wrapper payload p : Word) :
    (snip.aroundWrapper wrapper payload p).length = snip.aroundSize wrapper payload p := by
  have before : (emitSave snip.indirect snip.tailcall snip.savedContextLoc ++ emitPassParam snip.point payload).length =
      (if snip.indirect then 98 else 84) + passParamSize payload := by
    rw [List.length_append,length_emitSave,length_passParam]
  rw [aroundWrapper,callWrapper,List.length_append,List.length_append,length_callAbs,before,length_emitRestore]
  rfl

theorem length_exit (snip : Snippet) (p : Word) : (snip.emitExit p).length = snip.exitSize p := by
  simp only [emitExit,List.length_append,length_jump,length_around]
  rfl

theorem length_orig {lib : ArchX86} {snip : Snippet} {p : Word} {orig : List Byte}
    (made : snip.emitOrig lib p = some orig) : orig.length = snip.origSize lib p := by
  cases callee : snip.func with
  | some func =>
    simp only [emitOrig,callee] at made
    simp only [origSize,callee]
    split at made
    next tail =>
      rw [Option.ite_none_right_eq_some] at made
      obtain rfl := Option.some.inj made.2
      rw [if_pos tail,length_jump]
    next other =>
      rw [Option.ite_none_left_eq_some] at made
      obtain rfl := Option.some.inj made.2
      rw [if_neg other,List.length_append,length_callAbs,length_exit]
  | none =>
    simp only [emitOrig,callee,Option.bind_eq_bind,Option.pure_def,Option.bind_eq_some_iff,Option.some.injEq] at made
    obtain ⟨call,relocated,rfl⟩ := made
    have size := length_reloc relocated
    simp only [origSize,callee]
    rw [List.length_append,length_exit,size]

theorem length_generate {lib : ArchX86} {snip : Snippet} {reloc : Bool} {p : Word} {code : List Byte}
    (generated : snip.generate lib reloc p = some code) : code.length = snip.codeSize lib reloc p := by
  obtain ⟨moved,patch,copied,made,rfl⟩ := Workers.generate_eq_some generated
  have size : moved.length = if reloc then blockSize lib snip.block.last snip.block.insns p else 0 := by
    cases reloc with
    | false =>
      obtain rfl : [] = moved := by simpa using copied
      rfl
    | true => exact length_block copied
  simp only [emitPatch,Option.bind_eq_bind,Option.pure_def,Option.bind_eq_some_iff,Option.some.injEq] at made
  obtain ⟨orig,called,rfl⟩ := made
  rw [List.length_append,List.length_append,length_orig called,length_around,size]
  rfl

end Snippet

namespace Workers

/-- The buffers were asked for by these attempts, as large as one of the modes needs it. -/
structure Sized (c : Config) (pt : Nat) (attempts : List (InstallMethod × Answers)) (h : BlobHistory) : Prop where
  blob : h.blob ≠ 0 → ∃ x ∈ attempts, ∃ mode, h.asked = estimateBlobSize (c.blockOf pt) mode ∧ h.blob = x.2.blob h.asked
  made : ∀ m, h.made = some m →
    ∃ x ∈ attempts, ∃ mode, m.asked = estimateBlobSize (c.blockOf pt) mode ∧ m.buffer = x.2.blob m.asked

section
variable {c : Config} {pt : Nat} {w₀ w w₁ : World} {h h' : BlobHistory} {a : Answers} {k : InstallMethod}
  {attempts before : List (InstallMethod × Answers)}

namespace Sized

theorem start (w : World) : Sized c pt attempts (.start w) := ⟨fun there => absurd rfl there,fun _ made => nomatch made⟩

theorem mono {more : List (InstallMethod × Answers)} (sized : Sized c pt attempts h) (all : attempts ⊆ more) :
    Sized c pt more h where
  blob there := (sized.blob there).imp fun _ => And.imp_left fun listed => all listed
  made m found := (sized.made m found).imp fun _ => And.imp_left fun listed => all listed

theorem ask (sized : Sized c pt attempts h) (listed : (k,a) ∈ attempts) (mode : Bool) :
    Sized c pt attempts (h.ask (estimateBlobSize (c.blockOf pt) mode) a.blob) :=
  ⟨fun _ => ⟨(k,a),listed,mode,rfl,rfl⟩,sized.made⟩

theorem ensure (sized : Sized c pt attempts h) (listed : (k,a) ∈ attempts) (mode : Bool) :
    Sized c pt attempts (h.ensure (estimateBlobSize (c.blockOf pt) mode) a.blob) := by
  unfold BlobHistory.ensure
  split
  · exact sized.ask listed mode
  · exact sized

theorem build {reloc : Bool} (sized : Sized c pt attempts h) (there : h.blob ≠ 0)
    (builds : h.build c pt reloc = some h') : Sized c pt attempts h' := by
  unfold BlobHistory.build at builds
  split at builds
  · cases builds
    exact sized
  · obtain ⟨code,_,rfl⟩ := Option.map_eq_some_iff.mp builds
    refine ⟨sized.blob,fun m made => ?_⟩
    cases made
    exact sized.blob there

theorem attempt (sized : Sized c pt attempts h) (listed : (k,a) ∈ attempts)
    (next : h.attempt c pt w₀ k a = some h') : Sized c pt attempts h' := by
  cases k with
  | relocInsn =>
    simp only [BlobHistory.attempt] at next
    split at next
    · cases next
      exact sized
    split at next
    · cases next
      exact sized.ask listed false
    next reached =>
      obtain ⟨h₁,builds,rfl⟩ := Option.map_eq_some_iff.mp next
      have built := (sized.ask listed false).build (fun null => reached (.inl null)) builds
      exact ⟨built.blob,built.made⟩
  | relocBlk =>
    simp only [BlobHistory.attempt] at next
    split at next
    · cases next
      exact sized.ask listed true
    next reached => exact (sized.ask listed true).build (fun null => reached (.inl null)) next
  | trap =>
    simp only [BlobHistory.attempt] at next
    split at next
    · cases next
      exact sized
    split at next
    · cases next
      exact sized.ensure listed false
    next there => exact (sized.ensure listed false).build there next
  | springboard =>
    simp only [BlobHistory.attempt] at next
    split at next
    · cases next
      exact sized
    split at next
    · cases next
      exact sized.ensure listed true
    next there =>
    obtain ⟨h₁,builds,next⟩ := Option.bind_eq_some_iff.mp next
    have built := (sized.ensure listed true).build there builds
    split at next
    · cases next
      exact built
    · obtain ⟨moved,_,rfl⟩ := Option.map_eq_some_iff.mp next
      exact ⟨built.blob,built.made⟩

theorem follow (sized : Sized c pt attempts h) (listed : before ⊆ attempts)
    (comes : h.follow c pt w₀ before = some h') : Sized c pt attempts h' := by
  induction before generalizing h with
  | nil =>
    cases comes
    exact sized
  | cons x rest ih =>
    obtain ⟨first,others⟩ := List.cons_subset.mp listed
    obtain ⟨h₁,next,later⟩ := Option.bind_eq_some_iff.mp comes
    refine ih ?_ others later
    split at next
    · exact sized.attempt first next
    · cases next
      exact sized

end Sized

/-- The blob fits its buffer, or not. After any attempts, what has been generated is no longer
than its own mode asks for; it fits the buffer it was written to if and only if it leaves
out the block, or the buffer was asked for with the block, or the sizes of its parts
add up to no more than is asked for without. -/
theorem blob_fits_iff (layout : Layout c) (w : World) (fresh : w.snippet pt = .fresh) (reported : Reported (c.blockOf pt))
    (given : GivenUp c pt w before w₀) (saves : save c w₀ pt k = (true,w₁)) (placed : Placed c w₁ pt k a)
    (comes : (BlobHistory.start w).follow c pt w before = some h) (next : h.attempt c pt w k a = some h') (m : Made)
    (made : h'.made = some m) :
    ((worker c w₁ pt a k).2.snippet pt).blobSize ≤ estimateBlobSize (c.blockOf pt) m.reloc ∧
    ∃ x ∈ before ++ [(k,a)], ∃ mode, m.asked = estimateBlobSize (c.blockOf pt) mode ∧ m.buffer = x.2.blob m.asked ∧
      (((worker c w₁ pt a k).2.snippet pt).blobSize ≤ m.asked ↔ m.reloc = false ∨ mode = true ∨
        (c.snippet pt).codeSize c.lib true m.buffer ≤ baseEstimateRelocInsnSize) := by
  obtain ⟨_,comes',agrees,opcode⟩ := given.agrees layout (.start fresh) (by simp [BlobHistory.start])
  obtain rfl := Option.some.inj (comes.symm.trans comes')
  have tracks := tracks_worker layout placed (agrees.saved saves) (opcode_saved layout saves ▸ opcode)
  rw [next] at tracks
  obtain ⟨_,code,generated,size⟩ := tracks.made m made
  have short := length_generate_le reported generated
  have sized : Sized c pt (before ++ [(k,a)]) h' :=
    ((Sized.start w).follow (List.subset_append_left _ _) comes).attempt (List.mem_append_right _ List.mem_cons_self) next
  obtain ⟨x,listed,mode,asked,buffer⟩ := sized.made m made
  refine ⟨size ▸ short,x,listed,mode,asked,buffer,?_⟩
  have least : ∀ mode, baseEstimateRelocInsnSize ≤ estimateBlobSize (c.blockOf pt) mode := by
    intro mode
    cases mode <;> simp only [estimateBlobSize,baseEstimateRelocBlockSize,Bool.false_eq_true,if_false,if_true] <;> omega
  rw [size,asked]
  cases reloc : m.reloc with
  | false =>
    rw [reloc] at short
    exact iff_of_true (Nat.le_trans short (least mode)) (.inl rfl)
  | true =>
    rw [reloc] at short generated
    cases mode with
    | true => exact iff_of_true short (.inr (.inl rfl))
    | false => simp [estimateBlobSize,Snippet.length_generate generated]

end

/-- A block of twenty loads relative to the PC and a call, after a block of 35 nops. -/
def loads : Config := {ripPoint with
  obj := {
    loadAddr := 0x7f0000000000
    block := fun b =>
      if b = 0 then ⟨0x7f0000402000,0x7f0000402091,⟨(List.range 20).map fun i => (0x7f0000402000 + BitVec.ofNat 64 (7 * i),
          ripInsn [0x48,0x8b,0x05,0,0,0x10,0] 0x100000),0x7f000040208c,ripInsn [0xe8,0,0,0,0] 0⟩,false,true,true⟩
      else if b = 1 then ⟨0x7f0000401fc0,0x7f0000401fe4,⟨(List.range 35).map fun i =>
          (0x7f0000401fc0 + BitVec.ofNat 64 i,⟨[0x90],false,false,[],[],[],[],[],none⟩),0x7f0000401fe3,
          ⟨[0xc3],false,false,[],[],[],[],[],none⟩⟩,false,false,true⟩
      else ⟨0,0,⟨[],0,⟨[],false,false,[],[],[],[],[],none⟩⟩,false,false,false⟩
    regions := [(0x401fc0,0x402091)]
    findBlocks := fun _ a => if 0x401fc0 ≤ a ∧ a < 0x401fe4 then [1] else if 0x402000 ≤ a ∧ a < 0x402091 then [0] else [] }
  point := fun _ => ⟨0,some 0x7f0000500000,0x10,0x20,0x30,0x600000,true⟩
  workers := [.relocInsn,.springboard] }

def loadsWorld : World := {farWorld with mem := fun x => if x = 0x7f000040208c then 0xe8 else 0}

/-- Only a request for 600 bytes gets this buffer. -/
def loadsAnswers (buffer : Word) : Answers :=
  ⟨fun n => if n = 600 then buffer else 0x7f0000800000,fun _ => 0x7f0000600000,true,true,true,true⟩

/-- The first worker finds its buffer too far, the second keeps it. -/
def loadsAttempts (buffer : Word) : List (InstallMethod × Answers) :=
  [(.relocInsn,loadsAnswers buffer),(.springboard,loadsAnswers buffer)]

theorem loads_reported : Reported (loads.blockOf 0) where
  fills := by decide +kernel
  ends := by decide +kernel
  reads := by
    intro i listed _
    obtain ⟨j,_,rfl⟩ := List.mem_map.mp listed
    exact ⟨⟨0,.rip⟩,List.mem_singleton.mpr rfl,rfl⟩
  short := by decide +kernel

/-- A buffer of 600 bytes is taken for 706. -/
theorem loads_overrun : Reported (loads.blockOf 0) ∧
    (tryAttempts loads 0 loadsWorld (loadsAttempts 0x7e0000000000)).1 = .returns true ∧
    ((tryAttempts loads 0 loadsWorld (loadsAttempts 0x7e0000000000)).2.snippet 0).blob = 0x7e0000000000 ∧
    ((tryAttempts loads 0 loadsWorld (loadsAttempts 0x7e0000000000)).2.snippet 0).blobSize = 706 ∧
    ∀ n, (loadsAnswers 0x7e0000000000).blob n = 0x7e0000000000 → n = 600 := by
  refine ⟨loads_reported,by decide +kernel,by decide +kernel,by decide +kernel,fun n same => ?_⟩
  by_contra other
  simp [loadsAnswers,other] at same

theorem loads_block {i : Nat} {x : Word} (inside : In (loads.obj.block i).start (loads.obj.block i).size x) :
    i = 0 ∧ In 0x7f0000402000 0x91 x ∨ i = 1 ∧ In 0x7f0000401fc0 0x24 x := by
  by_cases zero : i = 0
  · subst zero
    exact .inl ⟨rfl,inside⟩
  by_cases one : i = 1
  · subst one
    exact .inr ⟨rfl,inside⟩
  · simp [loads,zero,one,Block.size,In] at inside

theorem loads_layout : Layout loads where
  apart := by
    intro i j differ x first second
    rcases loads_block first with ⟨rfl,here⟩ | ⟨rfl,here⟩ <;> rcases loads_block second with ⟨rfl,there⟩ | ⟨rfl,there⟩
    · exact differ rfl
    · simp only [In] at here there
      bv_omega
    · simp only [In] at here there
      bv_omega
    · exact differ rfl
  last := by
    intro b
    by_cases zero : b = 0
    · subst zero
      decide
    by_cases one : b = 1
    · subst one
      decide
    · simp [loads,zero,one,Block.size,Block.callSize,Block.last]
  call := by
    intro pt
    change 2 ≤ (0x7f0000402091 - 0x7f000040208c : Word).toNat
    decide

theorem loads_code {x : Word} (code : HasCode loads x) : (x - 0x7f0000401fc0).toNat < 0xd1 := by
  obtain ⟨b,inside⟩ := code
  rcases loads_block inside with ⟨_,here⟩ | ⟨_,here⟩ <;> simp only [In] at here <;> bv_omega

theorem loads_springCode (s : Nat) {code : List Byte} (copied : springCode loads s 0x7f0000600000 = some code) :
    code.length ≤ 0x1000 := by
  have lengths : ((springCode loads s 0x7f0000600000).map List.length).getD 0 ≤ 0x1000 := by
    by_cases zero : s = 0
    · subst zero
      decide +kernel
    by_cases one : s = 1
    · subst one
      decide +kernel
    · have other : springCode loads s 0x7f0000600000 = springCode loads 2 0x7f0000600000 := by
        simp [springCode,loads,zero,one]
      rw [other]
      decide +kernel
  rwa [copied] at lengths

/-- A buffer more than two gigabytes from the call and less from what is loaded. -/
def loadsBuffer : Word := 0x7f008040218c

theorem loads_placed {w : World} {k : InstallMethod} (buffer : blobBuffer loads w 0 (loadsAnswers loadsBuffer) k = loadsBuffer) :
    Placed loads w 0 k (loadsAnswers loadsBuffer) where
  blob := by
    intro reloc code generated x inside site
    rw [buffer] at generated inside
    have length := Snippet.length_generate generated
    have size : (loads.snippet 0).codeSize loads.lib reloc loadsBuffer ≤ 0x1000 := by cases reloc <;> decide +kernel
    have near := loads_code site
    simp only [In,loadsBuffer] at inside
    bv_omega
  spring := by
    intro _ s code copied x inside
    have small := loads_springCode s copied
    change In 0x7f0000600000 code.length x at inside
    refine ⟨fun site => ?_,fun reloc code' generated inside' => ?_⟩
    · have near := loads_code site
      simp only [In] at inside
      bv_omega
    · rw [buffer] at generated inside'
      have length := Snippet.length_generate generated
      have size : (loads.snippet 0).codeSize loads.lib reloc loadsBuffer ≤ 0x1000 := by cases reloc <;> decide +kernel
      simp only [In,loadsBuffer] at inside inside'
      bv_omega

def givenUpLoads : World := (worker loads loadsWorld 0 (loadsAnswers loadsBuffer) .relocInsn).2

theorem blob_fits_iff_loads : ((worker loads (save loads givenUpLoads 0 .springboard).2 0 (loadsAnswers loadsBuffer)
    .springboard).2.snippet 0).blobSize ≤ 600 := by
  have given : GivenUp loads 0 loadsWorld [(.relocInsn,loadsAnswers loadsBuffer)] givenUpLoads :=
    .failed rfl (loads_placed rfl) (Prod.ext (by decide +kernel) rfl) (.nil _)
  have saves : save loads givenUpLoads 0 .springboard = (true,(save loads givenUpLoads 0 .springboard).2) :=
    Prod.ext (by decide +kernel) rfl
  have history : ((BlobHistory.start loadsWorld).follow loads 0 loadsWorld [(.relocInsn,loadsAnswers loadsBuffer)]).bind (fun h =>
      (h.attempt loads 0 loadsWorld .springboard (loadsAnswers loadsBuffer)).map (·.made)) = some (some ⟨loadsBuffer,600,true⟩) := by
    decide +kernel
  obtain ⟨h,comes,next⟩ := Option.bind_eq_some_iff.mp history
  obtain ⟨h',next,made⟩ := Option.map_eq_some_iff.mp next
  obtain ⟨_,x,_,mode,_,_,fits⟩ := blob_fits_iff loads_layout loadsWorld rfl loads_reported given saves
    (loads_placed (by decide +kernel)) comes next ⟨loadsBuffer,600,true⟩ made
  exact fits.mpr (.inr (.inr (by decide +kernel)))

end Workers

end SelfPropelled
