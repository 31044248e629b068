import SelfPropelled.BlockRelocation
import SelfPropelled.Installations

/-! The patched call block and the patched spring block against the original ones: how
control gets to the relocated instructions, and what state it brings. -/

namespace SelfPropelled.Workers
open Machine

theorem shortJump_enters {code : Memory} {s : State} {d : Word} (fits : isDisp32 d = true)
    (held : CodeAt code s.rip (0xe9 :: toBytes 4 (d.setWidth 32))) : Enters code s (s.at (s.rip + 5 + d)) := by
  have enters := Enters.straight (s := s) .nil (encodes_jmpRel d fits) held rfl
  simpa [Ctl.apply,Target.resolve,State.at] using enters

theorem longJump_enters {code : Memory} {s : State} {target : Word}
    (held : CodeAt code s.rip (emitPushImm64 target ++ [0xc3])) :
    Enters code s {s.at target with mem := store s.mem (s.reg .rsp - 8) target} := by
  have enters := Enters.straight (emitPushImm64_assembles target) encodes_ret held (applyOps_pushImm64 target s)
  have back : load 64 (store s.mem (s.reg .rsp - 8) target) (s.reg .rsp - 8) = target :=
    load_store _ _ _ (by decide) (by decide)
  have registers : (fun q => if q = Reg.rsp then s.reg .rsp - 8 + 8 else if q = .rsp then s.reg .rsp - 8 else s.reg q) =
      s.reg := by
    funext q
    by_cases top : q = .rsp <;> simp [top]
  have ends : ∀ next, Ctl.ret.apply next {s.set .rsp (s.reg .rsp - 8) with
      mem := store s.mem (s.reg .rsp - 8) target} =
        {s.at target with mem := store s.mem (s.reg .rsp - 8) target} := by
    intro next
    simp only [Ctl.apply,State.set,State.at,if_true,back,registers]
  rw [ends] at enters
  exact enters

theorem hop_enters {code : Memory} {s : State} {target : Word} (hop : Hop code s.rip target) :
    Enters code s (s.at target) := by
  have encodes : Encodes (.ctl (.jmp (.rel ((code (s.rip + 1)).signExtend 64)))) [0xeb,code (s.rip + 1)] :=
    ⟨by simp [maxInstrLength],fun rest => by
      have form : ∀ bs, decode (0xeb :: bs) = (disp8 bs).map fun d => (.ctl (.jmp (.rel d)),2) := fun _ => rfl
      have one : disp8 (code (s.rip + 1) :: rest) = some ((code (s.rip + 1)).signExtend 64) := by
        have read := immediate_toBytes 1 (code (s.rip + 1)) rest (by decide)
        simp only [toBytes,List.cons_append,List.nil_append,BitVec.setWidth_eq] at read
        rw [disp8,read,Option.map_some]
      rw [List.cons_append,List.cons_append,List.nil_append,form,one]
      rfl⟩
  have held : CodeAt code s.rip [0xeb,code (s.rip + 1)] :=
    codeAt_of_bytesAt (by simp [bytesAt,hop.1])
  rw [← hop.2]
  exact Enters.straight (s := s) .nil encodes held rfl

/-- How control gets from the start of a patched call block to the blob: by one jump, or
by a hop into the spring block and the jump there. -/
def Arrives (code : Memory) : InstallMethod → State → State → Prop
  | .springboard,s,t => ∃ u, Enters code s u ∧ Enters code u t
  | _,s,t => Enters code s t

theorem Arrives.unique {code : Memory} {k : InstallMethod} {s t u : State} (first : Arrives code k s t)
    (second : Arrives code k s u) : t = u := by
  cases k with
  | springboard =>
    obtain ⟨v,hop,jump⟩ := first
    obtain ⟨v',hop',jump'⟩ := second
    obtain rfl := hop.unique hop'
    exact jump.unique jump'
  | trap | relocInsn | relocBlk => exact Enters.unique first second

section
variable (cpu : Cpu) (c : Config)

/-- The block's own entry leads to its relocated instructions with the state as it was, and
these do what the block did up to its last instruction. -/
def Follows (code : Memory) (arrives : State → State → Prop) (blk : Block) (target : Word) : Prop :=
  ∃ moved, relocBlock c.lib blk.code.insns blk.last target = some moved ∧ CodeAt code target moved ∧
    ∀ s, s.rip = blk.start → arrives s (s.at target) ∧
      runMoved cpu c.lib blk.last blk.code.insns target (s.at target) =
        (runBlock cpu blk.last blk.code.insns s).map (·.at target)

/-- The call block does in the blob what it did, up to its call. The spring block does it in
its own copy, from where control comes back to its last instruction, left in place. -/
def BlockTransparent (w f : World) (pt : Nat) (k : InstallMethod) : Prop :=
  Follows cpu c f.mem (Arrives f.mem k) (c.blockOf pt) (f.snippet pt).blob ∧
  (k = .springboard → ∀ b, (f.snippet pt).springBlk = some b →
    Follows cpu c f.mem (Enters f.mem) (c.obj.block b) (f.snippet pt).spring ∧
    (∀ moved, relocBlock c.lib (c.obj.block b).code.insns (c.obj.block b).last (f.snippet pt).spring = some moved →
      ∀ u : State, u.rip = (f.snippet pt).spring + BitVec.ofNat 64 moved.length →
        Enters f.mem u (u.at (c.obj.block b).last)) ∧
    ∀ x, In (c.obj.block b).last (c.obj.block b).callSize x → f.mem x = w.mem x)

end

section
variable {cpu : Cpu} {c : Config} {w f : World} {pt : Nat} {a : Answers}

theorem callBlock_patched (placed : Placed c w pt .relocBlk a) (granted : a.codePerm = true)
    (done : callBlockRun c w pt a = (.returns true,f)) :
    blobBuffer c w pt a .relocBlk ≠ 0 ∧
      CodeAt f.mem (c.blockOf pt).start (callBlockJump (c.blockOf pt) (blobBuffer c w pt a .relocBlk)) := by
  rcases callBlock_cases placed with ⟨_,stops⟩ | ⟨reaches,w',_,run⟩
  · exact absurd (by rw [done]) stops.1
  · refine ⟨reaches.1,?_⟩
    have fits := length_callBlockJump reaches.2.2.2.1 reaches.2.2.1
    obtain ⟨_,rfl⟩ := Prod.mk.inj (done.symm.trans run)
    rw [if_pos granted]
    exact codeAt_storeBytes _ _ _ (Nat.le_trans fits (Nat.le_of_lt (BitVec.isLt _)))

theorem springboard_patched (layout : Layout c) (springs : SpringsOk c pt w)
    (placed : Placed c w pt .springboard a)
    (granted : permits (c.blockOf pt).start a.codePerm = true ∧ a.springBlkPerm = true)
    (done : springboardRun c w pt a = (.returns true,f)) :
    blobBuffer c w pt a .springboard ≠ 0 ∧ ∃ jump, Hop f.mem (c.blockOf pt).start jump ∧
      LongJump f.mem jump (blobBuffer c w pt a .springboard) := by
  rcases springboard_cases placed with ⟨_,stops⟩ | ⟨reaches,s,moved,w',chosen,made,built,run⟩
  · exact absurd (by rw [done]) stops.1
  · obtain ⟨there,_,_,_,s',chosen',_,_,_,_,above⟩ := reaches
    obtain rfl := Option.some.inj (chosen.symm.trans chosen')
    refine ⟨there,(c.obj.block s).start + BitVec.ofNat 64 jumpAbsSize,?_⟩
    obtain ⟨_,rfl⟩ := Prod.mk.inj (done.symm.trans run)
    exact (spring_sites layout (springs.chosen chosen) (fun x code => springReady_code placed made built code)
      above).mpr ⟨.inl granted.2,.inl granted.1⟩

theorem longJump_exact {code : Memory} {p target : Word} (there : target ≠ 0)
    (held : CodeAt code p (emitPushImm64 target ++ [0xc3])) :
    ¬Enters code (noState.at p) (noState.at target) := by
  intro exactly
  have jumps := longJump_enters (s := noState.at p) held
  have mem := congrArg State.mem (jumps.unique exactly)
  have pushed : load 64 (store (fun _ => 0) (noState.reg .rsp - 8) target) (noState.reg .rsp - 8) = target :=
    load_store _ _ _ (by decide) (by decide)
  have zero : load 64 (fun _ => 0) (noState.reg .rsp - 8) = (0 : Word) := rfl
  change store (fun _ => 0) (noState.reg .rsp - 8) target = fun _ => 0 at mem
  rw [mem,zero] at pushed
  exact there pushed.symm

theorem blockJump_far {b : Block} {blob : Word} (far : isDisp32 (blob - b.start - 5) = false) :
    callBlockJump b blob = emitPushImm64 blob ++ [0xc3] := by
  rw [callBlockJump,if_neg (Bool.eq_false_iff.mp far)]
  simp [emitJumpAbs]

theorem longJump_held {code : Memory} {p target : Word} (long : LongJump code p target) :
    CodeAt code p (emitPushImm64 target ++ [0xc3]) :=
  codeAt_of_bytesAt (by simpa [LongJump,length_emitPushImm64,jumpAbsSize] using long)

theorem callBlock_near (placed : Placed c w pt .relocBlk a) (granted : a.codePerm = true)
    (done : callBlockRun c w pt a = (.returns true,f))
    (near : isDisp32 (blobBuffer c w pt a .relocBlk - (c.blockOf pt).start - 5) = true) (s : State)
    (here : s.rip = (c.blockOf pt).start) : Enters f.mem s (s.at (blobBuffer c w pt a .relocBlk)) := by
  obtain ⟨_,held⟩ := callBlock_patched placed granted done
  rw [callBlockJump,if_pos near,← here] at held
  have enters := shortJump_enters (by rwa [← here] at near) held
  have target : s.rip + 5 + (blobBuffer c w pt a .relocBlk - s.rip - 5) = blobBuffer c w pt a .relocBlk := by ring
  rwa [target] at enters

theorem patch_arrives {k : InstallMethod} (layout : Layout c) (springs : SpringsOk c pt w)
    (placed : Placed c w pt k a) (kind : k = .relocBlk ∨ k = .springboard)
    (granted : permits (c.blockOf pt).start a.codePerm = true ∧ a.springBlkPerm = true)
    (done : worker c w pt a k = (.returns true,f)) (s : State) (here : s.rip = (c.blockOf pt).start) :
    ∃ t, Arrives f.mem k s t ∧ Jumped (blobBuffer c w pt a k) s t := by
  have pushed : ∀ u : State, u.reg = s.reg → u.xmm = s.xmm → u.flags = s.flags → u.mem = s.mem →
      Jumped (blobBuffer c w pt a k) s {u.at (blobBuffer c w pt a k) with
        mem := store u.mem (u.reg .rsp - 8) (blobBuffer c w pt a k)} := by
    intro u reg xmm flags mem
    refine ⟨rfl,reg,xmm,flags,?_⟩
    rw [← mem,← reg]
    exact sameOutside_store u.mem (u.reg .rsp - 8) (blobBuffer c w pt a k)
  rcases kind with rfl | rfl
  · have perm : a.codePerm = true := (Bool.and_eq_true_iff.mp granted.1).2
    cases near : isDisp32 (blobBuffer c w pt a .relocBlk - (c.blockOf pt).start - 5) with
    | true => exact ⟨_,callBlock_near placed perm done near s here,rfl,rfl,rfl,rfl,.refl _ _ _⟩
    | false =>
      obtain ⟨_,held⟩ := callBlock_patched placed perm done
      rw [blockJump_far near,← here] at held
      exact ⟨_,longJump_enters held,pushed s rfl rfl rfl rfl⟩
  · obtain ⟨_,jump,hop,long⟩ := springboard_patched layout springs placed granted done
    rw [← here] at hop
    exact ⟨_,⟨s.at jump,hop_enters hop,longJump_enters (longJump_held long)⟩,pushed _ rfl rfl rfl rfl⟩

theorem near_of_transparent {k : InstallMethod} (layout : Layout c) (springs : SpringsOk c pt w)
    (placed : Placed c w pt k a) (kind : k = .relocBlk ∨ k = .springboard)
    (granted : permits (c.blockOf pt).start a.codePerm = true ∧ a.springBlkPerm = true)
    (done : worker c w pt a k = (.returns true,f)) (transparent : BlockTransparent cpu c w f pt k) :
    k = .relocBlk ∧ isDisp32 (blobBuffer c w pt a k - (c.blockOf pt).start - 5) = true := by
  obtain ⟨_,_,_,holds⟩ := holds_succeeded layout springs placed done
  obtain ⟨⟨_,_,_,follows⟩,_⟩ := transparent
  have exactly := (follows (noState.at (c.blockOf pt).start) rfl).1
  rw [holds.final,State.at_at] at exactly
  rcases kind with rfl | rfl
  · refine ⟨rfl,Bool.not_eq_false _ ▸ fun far => ?_⟩
    obtain ⟨there,held⟩ := callBlock_patched placed (Bool.and_eq_true_iff.mp granted.1).2 done
    rw [blockJump_far far] at held
    exact longJump_exact there held exactly
  · obtain ⟨there,jump,hop,long⟩ := springboard_patched layout springs placed granted done
    obtain ⟨u,first,second⟩ := exactly
    obtain rfl := first.unique (hop_enters (s := noState.at (c.blockOf pt).start) hop)
    exact absurd second (longJump_exact there (longJump_held long))

theorem transparent_of_near (layout : Layout c) (springs : SpringsOk c pt w) (placed : Placed c w pt .relocBlk a)
    (granted : a.codePerm = true) (done : worker c w pt a .relocBlk = (.returns true,f))
    (near : isDisp32 (blobBuffer c w pt a .relocBlk - (c.blockOf pt).start - 5) = true)
    (ready : Ready c pt w a .relocBlk) (movable : AllMovable cpu c.lib (c.blockOf pt).last
      (c.blockOf pt).code.insns (blobBuffer c w pt a .relocBlk)) : BlockTransparent cpu c w f pt .relocBlk := by
  obtain ⟨_,_,_,holds⟩ := holds_succeeded layout springs placed done
  obtain ⟨code,generated,bytes⟩ := (current_iff layout springs placed done).mpr ready
  rw [holds.final] at generated bytes
  obtain ⟨moved,patch,copied,_,rfl⟩ := generate_eq_some generated
  obtain ⟨moved',copied',does⟩ := runMoved_eq movable
  obtain rfl : moved = moved' := Option.some.inj (copied.symm.trans copied')
  rw [BlockTransparent,holds.final]
  refine ⟨⟨moved,copied,CodeAt.left (codeAt_of_bytesAt bytes),fun s here => ?_⟩,fun other => by cases other⟩
  exact ⟨callBlock_near placed granted done near s here,does s _⟩

/-- Transparency of the block patches: they are transparent only where the call block jumps
straight to a near blob, and there they are if the blob is this attempt's and the
instructions can be moved to it; elsewhere the patch still gets to the blob and has
changed just the word below the stack pointer. -/
theorem block_transparent_near (cpu : Cpu) (c : Config) (layout : Layout c) (w f : World) (pt : Nat)
    (a : Answers) (k : InstallMethod) (springs : SpringsOk c pt w) (placed : Placed c w pt k a)
    (kind : k = .relocBlk ∨ k = .springboard)
    (granted : permits (c.blockOf pt).start a.codePerm = true ∧ a.springBlkPerm = true)
    (done : worker c w pt a k = (.returns true,f)) :
    (BlockTransparent cpu c w f pt k →
      k = .relocBlk ∧ isDisp32 (blobBuffer c w pt a k - (c.blockOf pt).start - 5) = true) ∧
    (k = .relocBlk ∧ isDisp32 (blobBuffer c w pt a k - (c.blockOf pt).start - 5) = true ∧ Ready c pt w a k ∧
        AllMovable cpu c.lib (c.blockOf pt).last (c.blockOf pt).code.insns (blobBuffer c w pt a k) →
      BlockTransparent cpu c w f pt k) ∧
    ∀ s : State, s.rip = (c.blockOf pt).start → ∃ t, Arrives f.mem k s t ∧ Jumped (blobBuffer c w pt a k) s t := by
  refine ⟨near_of_transparent layout springs placed kind granted done,?_,
    patch_arrives layout springs placed kind granted done⟩
  rintro ⟨rfl,near,ready,movable⟩
  exact transparent_of_near layout springs placed (Bool.and_eq_true_iff.mp granted.1).2 done near ready movable

end

def nopCpu : Cpu where
  run bytes _ s := if bytes = [0x90] then some s else none
  moved bytes _ s _ := by
    by_cases known : bytes = [0x90] <;> simp [known]
  operand i := by
    refine ⟨fun _ _ => none,fun bytes encoding p s => if_neg fun single => ?_⟩
    have length := congrArg List.length single
    cases encoding with
    | disp d =>
      simp only [List.length_append,List.length_cons,length_toBytes,List.length_nil] at length
      omega
    | abs d =>
      simp only [List.length_append,List.length_cons,length_toBytes,List.length_nil] at length
      omega

theorem allMovable_nops (lib : ArchX86) (last : Word) {insns : List (Word × Instruction)}
    (nops : ∀ i ∈ insns, i.2 = nop) (p : Word) : AllMovable nopCpu lib last insns p := by
  induction insns generalizing p with
  | nil => trivial
  | cons head rest ih =>
    obtain ⟨a,insn⟩ := head
    obtain rfl : insn = nop := nops (a,insn) (by simp)
    exact ⟨fun _ => .free (by decide) fun _ => rfl,fun bytes _ => ih (fun i member => nops i (by simp [member])) _⟩

theorem tailNear_unsprung (pt : Nat) : SpringsOk tailNear pt nearWorld := by
  simp [SpringsOk,nearWorld,SnippetState.fresh]

/-- The first point's springboard pushes the blob's address over the word below the stack. -/
theorem tailNear_pushes : ∃ f, worker tailNear (save tailNear nearWorld 0 .springboard).2 0 (tailAnswers 0x500000)
      .springboard = (.returns true,f) ∧
    ¬BlockTransparent nopCpu tailNear (save tailNear nearWorld 0 .springboard).2 f 0 .springboard := by
  have springs : SpringsOk tailNear 0 (save tailNear nearWorld 0 .springboard).2 :=
    (@quiet_save tailNear 0 .springboard nearWorld).springsOk (tailNear_unsprung 0)
  refine ⟨_,Prod.ext (by decide +kernel) rfl,fun transparent => ?_⟩
  have near := near_of_transparent tailNear_layout springs tailNear_first.1 (.inr rfl) ⟨by decide,rfl⟩
    (Prod.ext (by decide +kernel) rfl) transparent
  cases near.1

/-- A near blob for the other block. -/
theorem block_transparent_near_tail : BlockTransparent nopCpu tailNear nearWorld
    (worker tailNear nearWorld 1 (tailAnswers 0x520000) .relocBlk).2 1 .relocBlk := by
  have placed : Placed tailNear nearWorld 1 .relocBlk (tailAnswers 0x520000) :=
    tailNear_placed _ rfl (.inr rfl) tailNear_second (by simp)
  have done : worker tailNear nearWorld 1 (tailAnswers 0x520000) .relocBlk =
      (.returns true,(worker tailNear nearWorld 1 (tailAnswers 0x520000) .relocBlk).2) :=
    Prod.ext (by decide +kernel) rfl
  refine (block_transparent_near nopCpu tailNear tailNear_layout nearWorld _ 1 (tailAnswers 0x520000) .relocBlk
    (tailNear_unsprung 1) placed (.inl rfl) ⟨by decide,rfl⟩ done).2.1 ⟨rfl,by decide +kernel,?_,?_⟩
  · exact ready_of_fresh tailNear_layout (tailNear_unsprung 1) placed done rfl
  · refine allMovable_nops _ _ (fun i listed => ?_) _
    obtain ⟨n,_,rfl⟩ := List.mem_map.mp listed
    rfl

end SelfPropelled.Workers
