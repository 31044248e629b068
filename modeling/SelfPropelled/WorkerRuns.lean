import SelfPropelled.WorkerSteps

/-! The runs of the workers by cases: a run either ends before it touches the code, or
all its checks pass and it ends as written down here. -/

namespace SelfPropelled.Workers
open Machine

def ShortJump (mem : Memory) (p target : Word) : Prop :=
  mem p = 0xe9 ∧ p + 5 + (load 32 mem (p + 1)).signExtend 64 = target

def LongJump (mem : Memory) (p target : Word) : Prop :=
  bytesAt mem p jumpAbsSize = emitPushImm64 target ++ [0xc3]

def Hop (mem : Memory) (p target : Word) : Prop :=
  mem p = 0xeb ∧ p + 2 + (mem (p + 1)).signExtend 64 = target

section
variable (c : Config)

def blobBuffer (w : World) (pt : Nat) (a : Answers) : InstallMethod → Word
  | .relocInsn => a.blob baseEstimateRelocInsnSize
  | .relocBlk => a.blob (baseEstimateRelocBlockSize (c.blockOf pt))
  | .springboard => if (w.snippet pt).blob = 0 then a.blob (baseEstimateRelocBlockSize (c.blockOf pt))
      else (w.snippet pt).blob
  | .trap => if (w.snippet pt).blob = 0 then a.blob baseEstimateRelocInsnSize else (w.snippet pt).blob

def springBuffer (a : Answers) (s : Nat) : Word := a.spring ((c.obj.block s).size + jumpAbsSize)

/-- The patch at the point's site leads to the blob: by a jump, by a hop and a jump,
or by the trap handler. -/
def PatchLeads (w : World) (pt : Nat) (blob : Word) : InstallMethod → Prop
  | .relocInsn => ShortJump w.mem (c.blockOf pt).last blob
  | .relocBlk => ShortJump w.mem (c.blockOf pt).start blob ∨
      jumpAbsSize ≤ (c.blockOf pt).size ∧ LongJump w.mem (c.blockOf pt).start blob
  | .springboard => ∃ s, (w.snippet pt).springBlk = some s ∧
      Hop w.mem (c.blockOf pt).start ((c.obj.block s).start + BitVec.ofNat 64 jumpAbsSize) ∧
      LongJump w.mem ((c.obj.block s).start + BitVec.ofNat 64 jumpAbsSize) blob
  | .trap => bytesAt w.mem (c.blockOf pt).last (trapBytes c).length = trapBytes c ∧
      -- a debug trap reports the address after it, an undefined instruction its own
      (onTrap w (if c.sigill then (c.blockOf pt).last else (c.blockOf pt).last + 1) true).map (·.1) =
        some pt

/-- The code at the point leads to a complete, executable blob. -/
def Led (w : World) (pt : Nat) (k : InstallMethod) : Prop :=
  (∃ code, (c.snippet pt).generate c.lib k.reloc (w.snippet pt).blob = some code ∧
    bytesAt w.mem (w.snippet pt).blob code.length = code ∧
    Executable w.rwx (w.snippet pt).blob code.length) ∧
  w.freed (w.snippet pt).blob = false ∧ PatchLeads c w pt (w.snippet pt).blob k

/-- A jump in the application's code to memory that is freed or may not be executed. -/
def DeadJump (w : World) (p target : Word) : Prop :=
  ((∀ x, In p 5 x → HasCode c x) ∧ ShortJump w.mem p target ∨
    (∀ x, In p jumpAbsSize x → HasCode c x) ∧ LongJump w.mem p target) ∧
  (w.freed target = true ∨ ¬Executable w.rwx target 1)

/-- The code is as it was, no jump to dead memory is new, no block is marked. -/
structure Untouched (w w' : World) : Prop where
  code : ∀ x, HasCode c x → w'.mem x = w.mem x
  jumps : ∀ p target, DeadJump c w' p target → DeadJump c w p target
  marks : w'.instrumented = w.instrumented

/-- What a worker's run is to be: it returns true only if the code now leads to the
blob, and leaves the code alone when it returns false. -/
def Atomic (w : World) (pt : Nat) (k : InstallMethod) : Result × World → Prop
  | (.returns true,w') => Led c w' pt k
  | (.returns false,w') => Untouched c w w'
  | (.exits,_) | (.aborts,_) | (.faults,_) => True

/-- What the worlds a worker runs in are known to be: a call with opcode 0xe8 has
five bytes, traps are registered where they are, a spring block found earlier
was suitable. -/
structure Sound (w : World) (pt : Nat) : Prop where
  calls : w.mem (c.blockOf pt).last = 0xe8 → (c.blockOf pt).callSize = 5
  traps : ∀ x q, w.instMap x = some q → x = (c.blockOf q).last
  springs : ∀ s, (w.snippet pt).springBlk = some s → SpringOk c (c.blockOf pt).start s

/-- Where the allocator puts buffers: the code written to them is apart from the
application's, and a relocated spring block from the blob. -/
structure Placed (w : World) (pt : Nat) (k : InstallMethod) (a : Answers) : Prop where
  blob : ∀ reloc code, (c.snippet pt).generate c.lib reloc (blobBuffer c w pt a k) = some code →
    ∀ x, In (blobBuffer c w pt a k) code.length x → ¬HasCode c x
  spring : k = .springboard → ∀ s moved, springCode c s (springBuffer c a s) = some moved →
    ∀ x, In (springBuffer c a s) moved.length x → ¬HasCode c x ∧
      ∀ reloc code, (c.snippet pt).generate c.lib reloc (blobBuffer c w pt a k) = some code →
        ¬In (blobBuffer c w pt a k) code.length x

/-- The worker's checks all pass, up to the first write to the code. -/
def Reaches (w : World) (pt : Nat) (a : Answers) (k : InstallMethod) : Prop :=
  let b := c.blockOf pt
  let blob := blobBuffer c w pt a k
  blob ≠ 0 ∧ Generates c w pt k.reloc blob ∧
  match k with
  | .relocInsn => 5 ≤ b.callSize ∧ w.mem b.last = 0xe8 ∧ isDisp32 (blob - b.last) = true ∧
      belowPage b.last = false ∧ belowPage blob = false ∧ (c.point pt).func.isSome = true ∧
      a.codePerm = true
  | .relocBlk => 5 ≤ b.size ∧ (isDisp32 (blob - b.start - 5) = true ∨ jumpAbsSize ≤ b.size) ∧
      belowPage blob = false ∧ a.blobPerm = true ∧ belowPage b.start = false
  | .springboard => belowPage blob = false ∧ a.blobPerm = true ∧
      ∃ s, (findSpringboard c w pt).1 = some s ∧ springBuffer c a s ≠ 0 ∧
        (springCode c s (springBuffer c a s)).isSome = true ∧ belowPage (springBuffer c a s) = false ∧
        a.springPerm = true ∧ belowPage (c.obj.block s).start = false
  | .trap => belowPage b.last = false ∧ a.codePerm = true

/-- The rest of the installation works: the permissions asked for later are granted,
or the code is there already, and the jump or the trap gets to the blob. -/
def Completes (w : World) (pt : Nat) (a : Answers) (k : InstallMethod) : Prop :=
  let b := c.blockOf pt
  let blob := blobBuffer c w pt a k
  match k with
  | .relocInsn => a.blobPerm = true ∧ Fits32 (blob - b.last - 5)
  | .relocBlk => a.codePerm = true ∨ PatchLeads c w pt blob .relocBlk
  | .springboard => ∀ s, (findSpringboard c w pt).1 = some s →
      let jump := (c.obj.block s).start + BitVec.ofNat 64 jumpAbsSize
      (a.springBlkPerm = true ∨ LongJump w.mem jump blob) ∧
      (permits b.start a.codePerm = true ∨
        Hop w.mem b.start jump ∧ (s = (c.point pt).block → a.springBlkPerm = false))
  | .trap => c.sigill = false ∧ belowPage blob = false

/-- The blob is the code of this worker, is or becomes executable, and is not freed:
nothing was generated for the snippet before, or just this. -/
def Usable (w : World) (pt : Nat) (a : Answers) (k : InstallMethod) : Prop :=
  let blob := blobBuffer c w pt a k
  let size := (w.snippet pt).blobSize
  (∃ code, (c.snippet pt).generate c.lib k.reloc blob = some code ∧
    (size = 0 ∨ bytesAt w.mem blob code.length = code) ∧
    (k ≠ .trap ∧ (size = 0 ∨ code.length ≤ size) ∨ Executable w.rwx blob code.length)) ∧
  (k = .relocInsn ∨ k = .relocBlk ∨ (w.snippet pt).blob = 0 ∨ w.freed blob = false)

end

theorem shortJump_congr {mem mem' : Memory} {p target : Word}
    (same : ∀ x, In p 5 x → mem' x = mem x) : ShortJump mem' p target ↔ ShortJump mem p target := by
  have first : mem' p = mem p := same p (by simp [In])
  have disp : load 32 mem' (p + 1) = load 32 mem (p + 1) :=
    load_congr (by decide) fun x inside => same x (by simp only [In] at *; bv_omega)
  simp only [ShortJump,first,disp]

theorem longJump_congr {mem mem' : Memory} {p target : Word}
    (same : ∀ x, In p jumpAbsSize x → mem' x = mem x) : LongJump mem' p target ↔ LongJump mem p target := by
  simp only [LongJump,bytesAt_congr (by decide) same]

theorem hop_congr {mem mem' : Memory} {p target : Word}
    (same : ∀ x, In p 2 x → mem' x = mem x) : Hop mem' p target ↔ Hop mem p target := by
  have first : mem' p = mem p := same p (by simp [In])
  have disp : mem' (p + 1) = mem (p + 1) := same _ (by simp only [In]; bv_omega)
  simp only [Hop,first,disp]

/-- Nothing the application's code does can tell the worlds apart, and what is known
of the point's world stays known. -/
structure Quiet (c : Config) (pt : Nat) (w w' : World) : Prop where
  code : ∀ x, HasCode c x → w'.mem x = w.mem x
  freed : ∀ x, w'.freed x = true → w.freed x = true
  rwx : ∀ r ∈ w.rwx, r ∈ w'.rwx
  marks : w'.instrumented = w.instrumented
  traps : ∀ x q, w'.instMap x = some q → w.instMap x = some q ∨ x = (c.blockOf q).last
  springs : ∀ s, (w'.snippet pt).springBlk = some s →
    (w.snippet pt).springBlk = some s ∨ SpringOk c (c.blockOf pt).start s

section
variable {c : Config} {pt : Nat} {w w' w'' : World}

theorem Quiet.refl : Quiet c pt w w :=
  ⟨fun _ _ => rfl,fun _ freed => freed,fun _ member => member,rfl,fun _ _ => .inl,fun _ => .inl⟩

theorem Quiet.trans (first : Quiet c pt w w') (second : Quiet c pt w' w'') : Quiet c pt w w'' where
  code x code := (second.code x code).trans (first.code x code)
  freed x freed := first.freed x (second.freed x freed)
  rwx r member := second.rwx r (first.rwx r member)
  marks := second.marks.trans first.marks
  traps x q listed := (second.traps x q listed).elim (first.traps x q) .inr
  springs s cached := (second.springs s cached).elim (first.springs s) .inr

theorem Quiet.untouched (quiet : Quiet c pt w w') : Untouched c w w' := by
  refine ⟨quiet.code,fun p target dead => ?_,quiet.marks⟩
  obtain ⟨jump,gone⟩ := dead
  refine ⟨?_,?_⟩
  · rcases jump with ⟨code,short⟩ | ⟨code,long⟩
    · exact .inl ⟨code,(shortJump_congr fun x inside => quiet.code x (code x inside)).mp short⟩
    · exact .inr ⟨code,(longJump_congr fun x inside => quiet.code x (code x inside)).mp long⟩
  · rcases gone with freed | fixed
    · exact .inl (quiet.freed target freed)
    · exact .inr fun exec => fixed (exec.mono quiet.rwx)

theorem Quiet.sound (quiet : Quiet c pt w w') (layout : Layout c) (sound : Sound c w pt) :
    Sound c w' pt where
  calls opcode := sound.calls (by rwa [quiet.code _ (layout.hasCode_last pt)] at opcode)
  traps x q listed := (quiet.traps x q listed).elim (sound.traps x q) id
  springs s cached := (quiet.springs s cached).elim (sound.springs s) id

theorem quiet_getBlob (w : World) (pt est : Nat) (malloc : Nat → Word) :
    Quiet c pt w (getBlob w pt est malloc) := by
  refine ⟨fun _ _ => rfl,fun _ freed => (Bool.and_eq_true_iff.mp freed).1,fun _ member => member,rfl,
    fun _ _ => .inl,fun _ cached => .inl ?_⟩
  rwa [getBlob_snippet] at cached

theorem quiet_ensureBlob (w : World) (pt est : Nat) (malloc : Nat → Word) :
    Quiet c pt w (ensureBlob w pt est malloc) := by
  unfold ensureBlob
  split
  · exact quiet_getBlob w pt est malloc
  · exact .refl

theorem quiet_rwx (w : World) (r : Word × Nat) : Quiet c pt w {w with rwx := r :: w.rwx} :=
  ⟨fun _ _ => rfl,fun _ freed => freed,fun _ member => List.mem_cons_of_mem _ member,rfl,
    fun _ _ => .inl,fun _ => .inl⟩

theorem Built.quiet {reloc : Bool} (built : Built c w pt reloc w')
    (apart : ∀ code, (c.snippet pt).generate c.lib reloc (w.snippet pt).blob = some code →
      ∀ x, In (w.snippet pt).blob code.length x → ¬HasCode c x) : Quiet c pt w w' := by
  refine ⟨fun x code => built.outside fun code' generated inside => apart code' generated x inside code,
    fun _ => ?_,fun _ => ?_,built.instrumented,fun _ _ => ?_,fun _ => ?_⟩
  · rw [built.freed]
    exact id
  · rw [built.rwx]
    exact id
  · rw [built.instMap]
    exact .inl
  · rw [built.springBlk]
    exact .inl

theorem quiet_findSpringboard (w : World) : Quiet c pt w (findSpringboard c w pt).2 := by
  rcases findSpringboard_cases (c := c) w pt with ⟨s,_,eq⟩ | ⟨_,eq | ⟨s,fits,eq⟩⟩
  · rw [eq]
    exact .refl
  · rw [eq]
    exact .refl
  · rw [eq]
    refine ⟨fun _ _ => rfl,fun _ freed => freed,fun _ member => member,rfl,fun _ _ => .inl,
      fun s' cached => .inr ?_⟩
    obtain rfl : s = s' := by simpa [World.setSnippet] using cached
    exact (suitable_iff.mp fits).1

end

/-- A run that ends before it touches the code. -/
def Stops (c : Config) (pt : Nat) (w : World) (run : Result × World) : Prop :=
  run.1 ≠ .returns true ∧ (run.1 = .returns false → Quiet c pt w run.2)

theorem Stops.failed {c : Config} {pt : Nat} {w w' : World} (quiet : Quiet c pt w w') : Stops c pt w (.returns false,w') :=
  ⟨by simp,fun _ => quiet⟩

section
variable {c : Config} {w : World} {pt : Nat} {a : Answers}

theorem Stops.after {w' : World} {run : Result × World} (quiet : Quiet c pt w w') (stops : Stops c pt w' run) :
    Stops c pt w run :=
  ⟨stops.1,fun failed => quiet.trans (stops.2 failed)⟩

theorem Stops.ended {r : Result} {w' : World} (ended : ∀ ok, r ≠ .returns ok) : Stops c pt w (r,w') :=
  ⟨ended true,fun failed => absurd failed (ended false)⟩

theorem callInsnInstall_cases (there : (w.snippet pt).blob ≠ 0)
    (apart : ∀ code, (c.snippet pt).generate c.lib false (w.snippet pt).blob = some code →
      ∀ x, In (w.snippet pt).blob code.length x → ¬HasCode c x) :
    let b := c.blockOf pt
    let blob := (w.snippet pt).blob
    let checks := Generates c w pt false blob ∧ belowPage b.last = false ∧ belowPage blob = false ∧
      (c.point pt).func.isSome = true ∧ a.codePerm = true
    ¬checks ∧ Stops c pt w (callInsnInstall c w pt a) ∨
    checks ∧ ∃ w', Built c w pt false w' ∧
      let patched := {w' with rwx := (b.last,b.callSize) :: w'.rwx}.write b.last (callInsnJump b blob)
      callInsnInstall c w pt a =
        if a.blobPerm then (.returns true,{patched with
          rwx := (blob,(w'.snippet pt).blobSize) :: patched.rwx})
        else (.returns false,patched.free blob) := by
  intro b blob checks
  have same : ensureBlob w pt baseEstimateRelocInsnSize a.blob = w := ensureBlob_of_blob _ _ there
  cases site : belowPage (c.blockOf pt).last with
  | true =>
    refine .inl ⟨fun met => Bool.noConfusion (site.symm.trans met.2.1),?_⟩
    simp only [callInsnInstall,site,if_true]
    exact .failed .refl
  | false =>
    by_cases generates : Generates c w pt false blob
    swap
    · have stuck : buildBlob c w pt baseEstimateRelocInsnSize false a.blob = none :=
        buildBlob_stops (by rwa [same]) (by rwa [same])
      refine .inl ⟨fun met => generates met.1,?_⟩
      simp only [callInsnInstall,stuck,site,Bool.false_eq_true,if_false]
      exact .ended (by simp)
    obtain ⟨w',builds,built⟩ := buildBlob_built (c := c) w pt baseEstimateRelocInsnSize false
      a.blob (by rwa [same]) (by rwa [same])
    rw [same] at builds built
    have quiet := built.quiet apart
    simp only [callInsnInstall,site,Bool.false_eq_true,if_false,builds,if_neg there]
    cases buffer : belowPage (w.snippet pt).blob with
    | true =>
      refine .inl ⟨fun met => Bool.noConfusion (buffer.symm.trans met.2.2.1),?_⟩
      simp only [if_true]
      exact .failed quiet
    | false =>
      cases callee : (c.point pt).func.isNone with
      | true =>
        refine .inl ⟨fun met => ?_,?_⟩
        · have known := met.2.2.2.1
          simp [Option.isNone_iff_eq_none.mp callee] at known
        · simp only [Bool.false_eq_true,if_false,if_true]
          exact .ended (by simp)
      | false =>
        have known : (c.point pt).func.isSome = true := by
          cases func : (c.point pt).func <;> simp_all
        cases perm : a.codePerm with
        | false =>
          refine .inl ⟨fun met => Bool.noConfusion (perm.symm.trans met.2.2.2.2),?_⟩
          simp only [setMemoryPermission,permits_of_page site,Bool.false_eq_true,if_false]
          exact .failed quiet
        | true =>
          refine .inr ⟨⟨generates,site,buffer,known,perm⟩,w',built,?_⟩
          simp only [setMemoryPermission,permits_of_page site,permits_of_page buffer,Bool.false_eq_true,
            if_false,if_true]
          cases a.blobPerm <;> rfl

theorem callInsn_cases (placed : Placed c w pt .relocInsn a) :
    ¬Reaches c w pt a .relocInsn ∧ Stops c pt w (callInsnRun c w pt a) ∨
    Reaches c w pt a .relocInsn ∧
      ∃ w', Built c (getBlob w pt baseEstimateRelocInsnSize a.blob) pt false w' ∧
        let b := c.blockOf pt
        let blob := a.blob baseEstimateRelocInsnSize
        let patched := {w' with rwx := (b.last,b.callSize) :: w'.rwx}.write b.last (callInsnJump b blob)
        callInsnRun c w pt a =
          if a.blobPerm then (.returns true,{patched with
            rwx := (blob,(w'.snippet pt).blobSize) :: patched.rwx})
          else (.returns false,patched.free blob) := by
  have null := quiet_getBlob (c := c) w pt baseEstimateRelocInsnSize a.blob
  have start : ensureBlob (getBlob w pt baseEstimateRelocInsnSize a.blob) pt baseEstimateRelocInsnSize
      a.blob = getBlob w pt baseEstimateRelocInsnSize a.blob ∨ a.blob baseEstimateRelocInsnSize = 0 := by
    by_cases zero : a.blob baseEstimateRelocInsnSize = 0
    · exact .inr zero
    · exact .inl (ensureBlob_of_blob _ _ (by simpa using zero))
  by_cases small : (c.blockOf pt).callSize < 5
  · refine .inl ⟨fun reaches => ?_,?_⟩
    · have large := reaches.2.2.1
      omega
    · simp only [callInsnRun,if_pos small]
      exact .failed .refl
  by_cases direct : w.mem (c.blockOf pt).last ≠ 0xe8
  · refine .inl ⟨fun reaches => direct reaches.2.2.2.1,?_⟩
    simp only [callInsnRun,if_neg small,if_pos direct]
    exact .failed .refl
  by_cases zero : a.blob baseEstimateRelocInsnSize = 0
  · refine .inl ⟨fun reaches => reaches.1 zero,?_⟩
    simp only [callInsnRun,if_neg small,if_neg direct,getBlob_snippet,if_pos zero]
    exact .failed null
  have start := start.resolve_right zero
  cases near : isDisp32 (a.blob baseEstimateRelocInsnSize - (c.blockOf pt).last) with
  | false =>
    refine .inl ⟨fun reaches => ?_,?_⟩
    · have near' := reaches.2.2.2.2.1
      simp [blobBuffer,near] at near'
    · simp only [callInsnRun,if_neg small,if_neg direct,getBlob_snippet,if_neg zero,near,Bool.not_false,
        if_true]
      exact .failed null
  | true =>
    have runs : callInsnRun c w pt a =
        callInsnInstall c (getBlob w pt baseEstimateRelocInsnSize a.blob) pt a := by
      simp only [callInsnRun,if_neg small,if_neg direct,getBlob_snippet,if_neg zero,near,Bool.not_true,
        Bool.false_eq_true,if_false]
    rw [runs]
    have apart := placed.blob false
    rcases @callInsnInstall_cases c (getBlob w pt baseEstimateRelocInsnSize a.blob) pt a
      (by simpa using zero) (by simpa [blobBuffer] using apart) with ⟨fails,stops⟩ | ⟨checks,w',built,run⟩
    · refine .inl ⟨fun reaches => fails ?_,stops.after null⟩
      obtain ⟨_,generates,_,_,_,site,buffer,callee,perm⟩ := reaches
      simpa [Generates,blobBuffer,InstallMethod.reloc] using ⟨generates,site,buffer,callee,perm⟩
    · refine .inr ⟨?_,w',built,by simpa using run⟩
      obtain ⟨generates,site,buffer,callee,perm⟩ := checks
      have direct' : w.mem (c.blockOf pt).last = 0xe8 := not_not.mp direct
      refine ⟨zero,?_,by omega,direct',near,site,?_,callee,perm⟩
      · simpa [Generates,blobBuffer,InstallMethod.reloc] using generates
      · simpa [blobBuffer] using buffer

theorem installJumpToBlock_cases {jump : List Byte} (there : (w.snippet pt).blob ≠ 0)
    (apart : ∀ code, (c.snippet pt).generate c.lib true (w.snippet pt).blob = some code →
      ∀ x, In (w.snippet pt).blob code.length x → ¬HasCode c x) :
    let b := c.blockOf pt
    let blob := (w.snippet pt).blob
    let checks := Generates c w pt true blob ∧ belowPage blob = false ∧ a.blobPerm = true ∧
      belowPage b.start = false
    ¬checks ∧ Stops c pt w (installJumpToBlock c w pt a jump) ∨
    checks ∧ ∃ w', Built c w pt true w' ∧
      let ready := {w' with rwx := (blob,(w'.snippet pt).blobSize) :: w'.rwx}
      installJumpToBlock c w pt a jump = (.returns true,
        if a.codePerm then {ready with rwx := (b.start,jump.length) :: ready.rwx}.write b.start jump
        else ready) := by
  intro b blob checks
  have same : ∀ est, ensureBlob w pt est a.blob = w := fun est => ensureBlob_of_blob est _ there
  by_cases generates : Generates c w pt true blob
  swap
  · have stuck : buildBlob c w pt (baseEstimateRelocBlockSize b) true a.blob = none :=
      buildBlob_stops (by rwa [same]) (by rwa [same])
    refine .inl ⟨fun met => generates met.1,?_⟩
    simp only [b] at stuck
    simp only [installJumpToBlock,stuck]
    exact .ended (by simp)
  obtain ⟨w',builds,built⟩ := buildBlob_built (c := c) w pt (baseEstimateRelocBlockSize b) true a.blob
    (by rwa [same]) (by rwa [same])
  rw [same] at builds built
  have quiet := built.quiet apart
  have present : decide ((w.snippet pt).blob = 0) = false := decide_eq_false there
  simp only [b] at builds
  simp only [installJumpToBlock,builds,present,Bool.false_or]
  cases buffer : belowPage (w.snippet pt).blob with
  | true =>
    refine .inl ⟨fun met => Bool.noConfusion (buffer.symm.trans met.2.1),?_⟩
    rw [if_pos rfl]
    exact .failed quiet
  | false =>
    rw [if_neg (by simp)]
    cases perm : a.blobPerm with
    | false =>
      refine .inl ⟨fun met => Bool.noConfusion (perm.symm.trans met.2.2.1),?_⟩
      simp only [setMemoryPermission,permits_of_page buffer,Bool.false_eq_true,if_false]
      exact .ended (by simp)
    | true =>
      simp only [setMemoryPermission,permits_of_page buffer,if_true]
      cases site : belowPage (c.blockOf pt).start with
      | true =>
        refine .inl ⟨fun met => Bool.noConfusion (site.symm.trans met.2.2.2),?_⟩
        rw [if_pos rfl]
        exact .failed (quiet.trans (quiet_rwx _ _))
      | false =>
        refine .inr ⟨⟨generates,buffer,perm,site⟩,w',built,?_⟩
        rw [if_neg (by simp)]
        simp only [permits_of_page site]
        cases a.codePerm <;> rfl

def callBlockJump (b : Block) (blob : Word) : List Byte :=
  if isDisp32 (blob - b.start - 5) then 0xe9 :: toBytes 4 ((blob - b.start - 5).setWidth 32)
  else emitJumpAbs blob b.start true

theorem callBlock_cases (placed : Placed c w pt .relocBlk a) :
    ¬Reaches c w pt a .relocBlk ∧ Stops c pt w (callBlockRun c w pt a) ∨
    Reaches c w pt a .relocBlk ∧
      ∃ w', Built c (getBlob w pt (baseEstimateRelocBlockSize (c.blockOf pt)) a.blob) pt true w' ∧
        let b := c.blockOf pt
        let blob := a.blob (baseEstimateRelocBlockSize b)
        let jump := callBlockJump b blob
        let ready := {w' with rwx := (blob,(w'.snippet pt).blobSize) :: w'.rwx}
        callBlockRun c w pt a = (.returns true,
          if a.codePerm then {ready with rwx := (b.start,jump.length) :: ready.rwx}.write b.start jump
          else ready) := by
  have null := quiet_getBlob (c := c) w pt (baseEstimateRelocBlockSize (c.blockOf pt)) a.blob
  by_cases zero : a.blob (baseEstimateRelocBlockSize (c.blockOf pt)) = 0
  · refine .inl ⟨fun reaches => reaches.1 zero,?_⟩
    simp only [callBlockRun,getBlob_snippet,if_pos zero]
    exact .failed null
  by_cases small : (c.blockOf pt).size < 5
  · refine .inl ⟨fun reaches => ?_,?_⟩
    · have large := reaches.2.2.1
      omega
    · simp only [callBlockRun,getBlob_snippet,if_neg zero,if_pos small]
      exact .failed null
  by_cases room : isDisp32 (a.blob (baseEstimateRelocBlockSize (c.blockOf pt)) - (c.blockOf pt).start - 5) =
      true ∨ jumpAbsSize ≤ (c.blockOf pt).size
  swap
  · obtain ⟨far,narrow⟩ := not_or.mp room
    refine .inl ⟨fun reaches => room reaches.2.2.2.1,?_⟩
    simp only [callBlockRun,getBlob_snippet,if_neg zero,if_neg small,if_neg far,if_neg narrow]
    exact .failed null
  have run : callBlockRun c w pt a =
      installJumpToBlock c (getBlob w pt (baseEstimateRelocBlockSize (c.blockOf pt)) a.blob) pt a
        (callBlockJump (c.blockOf pt) (a.blob (baseEstimateRelocBlockSize (c.blockOf pt)))) := by
    simp only [callBlockRun,getBlob_snippet,if_neg zero,if_neg small,callBlockJump]
    split
    · rfl
    · rename_i far
      rw [if_pos (room.resolve_left far)]
  rw [run]
  have apart := placed.blob true
  rcases @installJumpToBlock_cases c
    (getBlob w pt (baseEstimateRelocBlockSize (c.blockOf pt)) a.blob) pt a
    (callBlockJump (c.blockOf pt) (a.blob (baseEstimateRelocBlockSize (c.blockOf pt))))
    (by simpa using zero) (by simpa [blobBuffer] using apart) with ⟨fails,stops⟩ | ⟨checks,w',built,done⟩
  · refine .inl ⟨fun reaches => fails ?_,stops.after null⟩
    obtain ⟨_,generates,_,_,buffer,perm,site⟩ := reaches
    simpa [Generates,blobBuffer,InstallMethod.reloc] using ⟨generates,buffer,perm,site⟩
  · refine .inr ⟨?_,w',built,by simpa using done⟩
    obtain ⟨generates,buffer,perm,site⟩ := checks
    refine ⟨zero,?_,by omega,room,?_,perm,site⟩
    · simpa [Generates,blobBuffer,InstallMethod.reloc] using generates
    · simpa [blobBuffer] using buffer

theorem findSpringboard_snippet (w : World) (pt : Nat) :
    (((findSpringboard c w pt).2.snippet pt).blob = (w.snippet pt).blob) ∧
      ((findSpringboard c w pt).2.snippet pt).blobSize = (w.snippet pt).blobSize := by
  unfold findSpringboard
  split
  · exact ⟨rfl,rfl⟩
  · dsimp only
    split
    · exact ⟨rfl,rfl⟩
    · simp [World.setSnippet]

@[simp] theorem findSpringboard_mem (w : World) (pt : Nat) : (findSpringboard c w pt).2.mem = w.mem := by
  rcases findSpringboard_cases (c := c) w pt with ⟨s,_,eq⟩ | ⟨_,eq | ⟨s,_,eq⟩⟩ <;> rw [eq]
  rfl

@[simp] theorem registerTrap_mem (w : World) (pt : Nat) : (registerTrap c w pt).mem = w.mem := rfl

@[simp] theorem registerTrap_snippet (w : World) (pt : Nat) : (registerTrap c w pt).snippet = w.snippet := rfl

@[simp] theorem registerTrap_rwx (w : World) (pt : Nat) : (registerTrap c w pt).rwx = w.rwx := rfl

@[simp] theorem registerTrap_freed (w : World) (pt : Nat) : (registerTrap c w pt).freed = w.freed := rfl

theorem trap_cases (placed : Placed c w pt .trap a) :
    let registered := registerTrap c w pt
    ¬Reaches c w pt a .trap ∧ Stops c pt w (trapRun c w pt a) ∨
    Reaches c w pt a .trap ∧
      ∃ w', Built c (ensureBlob registered pt baseEstimateRelocInsnSize a.blob) pt false w' ∧
        let b := c.blockOf pt
        trapRun c w pt a =
          (.returns true,{w' with rwx := (b.last,b.callSize) :: w'.rwx}.write b.last (trapBytes c)) := by
  intro registered
  have listed : Quiet c pt w registered := by
    refine ⟨fun _ _ => rfl,fun _ freed => freed,fun _ member => member,rfl,fun x q there => ?_,fun _ => .inl⟩
    simp only [registered,registerTrap] at there
    split at there
    · rename_i here
      cases there
      exact .inr here
    · exact .inl there
  have ensured := quiet_ensureBlob (c := c) registered pt baseEstimateRelocInsnSize a.blob
  have buffer : ((ensureBlob registered pt baseEstimateRelocInsnSize a.blob).snippet pt).blob =
      blobBuffer c w pt a .trap := ensureBlob_blob _ _ _ _
  have gens : Generates c (ensureBlob registered pt baseEstimateRelocInsnSize a.blob) pt false
      (blobBuffer c w pt a .trap) ↔ Generates c w pt false (blobBuffer c w pt a .trap) := by
    simp only [Generates,ensureBlob_blobSize]
    rfl
  cases site : belowPage (c.blockOf pt).last with
  | true =>
    refine .inl ⟨fun reaches => by simpa [site] using reaches.2.2.1,?_⟩
    simp only [trapRun,site,if_true]
    exact .failed listed
  | false =>
    by_cases zero : blobBuffer c w pt a .trap = 0
    · have null := @buildBlob_null c registered pt baseEstimateRelocInsnSize false a.blob
        (buffer.trans zero)
      refine .inl ⟨fun reaches => reaches.1 zero,?_⟩
      simp only [trapRun,site,Bool.false_eq_true,if_false]
      rw [null]
      simp only [if_true]
      exact .failed (listed.trans ensured)
    by_cases generates : Generates c w pt false (blobBuffer c w pt a .trap)
    swap
    · have stuck : buildBlob c registered pt baseEstimateRelocInsnSize false a.blob = none :=
        buildBlob_stops (by rwa [buffer]) (by rw [buffer,gens]; exact generates)
      refine .inl ⟨fun reaches => generates reaches.2.1,?_⟩
      simp only [trapRun,site,Bool.false_eq_true,if_false]
      rw [stuck]
      exact .ended (by simp)
    obtain ⟨w',builds,built⟩ := buildBlob_built (c := c) registered pt
      baseEstimateRelocInsnSize false a.blob (by rwa [buffer])
      (by rw [buffer,gens]; exact generates)
    rw [buffer] at builds
    have quiet := built.quiet (by rw [buffer]; exact placed.blob false)
    cases perm : a.codePerm with
    | false =>
      refine .inl ⟨fun reaches => by simpa [perm] using reaches.2.2.2,?_⟩
      simp only [trapRun,site,Bool.false_eq_true,if_false]
      rw [builds]
      simp only [if_neg zero,setMemoryPermission,permits_of_page site,perm,Bool.false_eq_true,if_false]
      exact .failed ((listed.trans ensured).trans quiet)
    | true =>
      refine .inr ⟨⟨zero,generates,site,perm⟩,w',built,?_⟩
      simp only [trapRun,site,Bool.false_eq_true,if_false]
      rw [builds]
      simp only [if_neg zero,setMemoryPermission,permits_of_page site,perm,if_true]

def springReady (w : World) (pt : Nat) (blob spring : Word) (code : List Byte) : World :=
  let w := {w with rwx := (blob,(w.snippet pt).blobSize) :: w.rwx}
  let w := {w with freed := fun x => w.freed x && x != spring}
  let w := (w.write spring code).setSnippet pt
    {w.snippet pt with spring := spring,springSize := code.length}
  {w with rwx := (spring,code.length) :: w.rwx}

/-- The world once the spring block is relocated, before its permission is set. -/
def springMoved (w : World) (pt : Nat) (blob spring : Word) (code : List Byte) : World :=
  (World.write {w with
    rwx := (blob,(w.snippet pt).blobSize) :: w.rwx
    freed := fun x => w.freed x && x != spring} spring code).setSnippet pt
      {w.snippet pt with spring := spring,springSize := code.length}

theorem relocateSpring_moved {s : Nat} {blob : Word} {code : List Byte} (there : springBuffer c a s ≠ 0)
    (made : springCode c s (springBuffer c a s) = some code) :
    relocateSpring c {w with rwx := (blob,(w.snippet pt).blobSize) :: w.rwx} pt s a.spring =
      .ok (springBuffer c a s,springMoved w pt blob (springBuffer c a s) code) := by
  simp only [springBuffer] at there made
  simp only [relocateSpring,if_neg there,made]
  rfl

theorem quiet_springMoved {blob spring : Word} {code : List Byte}
    (apart : ∀ x, In spring code.length x → ¬HasCode c x) : Quiet c pt w (springMoved w pt blob spring code) := by
  refine ⟨fun x site => ?_,fun x freed => (Bool.and_eq_true_iff.mp freed).1,
    fun _ member => List.mem_cons_of_mem _ member,rfl,fun _ _ => .inl,fun _ cached => .inl ?_⟩
  · exact storeBytes_outside _ _ _ _ fun inside => apart x inside site
  · rwa [springMoved,setSnippet_self] at cached

theorem springReady_moved (w : World) (pt : Nat) (blob spring : Word) (code : List Byte) :
    springReady w pt blob spring code = {springMoved w pt blob spring code with
      rwx := (spring,code.length) :: (springMoved w pt blob spring code).rwx} := rfl

theorem springboardInstall_cases {s : Nat} {blob : Word} (there : blob ≠ 0)
    (apart : ∀ code, springCode c s (springBuffer c a s) = some code →
      ∀ x, In (springBuffer c a s) code.length x → ¬HasCode c x) :
    let checks := belowPage blob = false ∧ a.blobPerm = true ∧ springBuffer c a s ≠ 0 ∧
      (springCode c s (springBuffer c a s)).isSome = true ∧ belowPage (springBuffer c a s) = false ∧
      a.springPerm = true ∧ belowPage (c.obj.block s).start = false
    ¬checks ∧ Stops c pt w (springboardInstall c w pt s blob a) ∨
    checks ∧ ∃ code, springCode c s (springBuffer c a s) = some code ∧
      springboardInstall c w pt s blob a = (.returns true,
        installSpring c (springReady w pt blob (springBuffer c a s) code) pt s blob (springBuffer c a s) a) := by
  intro checks
  have present : decide (blob = 0) = false := decide_eq_false there
  unfold springboardInstall
  rw [present,Bool.false_or]
  cases buffer : belowPage blob with
  | true =>
    refine .inl ⟨fun met => by simpa [buffer] using met.1,?_⟩
    rw [if_pos rfl]
    exact .failed .refl
  | false =>
  rw [if_neg (by simp)]
  cases perm : a.blobPerm with
  | false =>
    refine .inl ⟨fun met => by simpa [perm] using met.2.1,?_⟩
    simp only [setMemoryPermission,permits_of_page buffer,Bool.false_eq_true,if_false]
    exact .ended (by simp)
  | true =>
  simp only [setMemoryPermission,permits_of_page buffer,if_true]
  by_cases null : springBuffer c a s = 0
  · refine .inl ⟨fun met => met.2.2.1 null,?_⟩
    simp only [springBuffer] at null
    simp only [relocateSpring,null,if_true]
    exact .ended (by simp)
  cases made : springCode c s (springBuffer c a s) with
  | none =>
    refine .inl ⟨fun met => by simpa [made] using met.2.2.2.1,?_⟩
    simp only [springBuffer] at made null
    simp only [relocateSpring,if_neg null,made]
    exact .ended (by simp)
  | some code =>
  have quiet : Quiet c pt w (springMoved w pt blob (springBuffer c a s) code) := quiet_springMoved (apart code made)
  rw [relocateSpring_moved null made]
  simp only
  cases above : belowPage (springBuffer c a s) with
  | true =>
    refine .inl ⟨fun met => by simpa [above] using met.2.2.2.2.1,?_⟩
    rw [if_pos rfl]
    exact .failed quiet
  | false =>
  rw [if_neg (by simp)]
  cases perm' : a.springPerm with
  | false =>
    refine .inl ⟨fun met => by simpa [perm'] using met.2.2.2.2.2.1,?_⟩
    simp only [permits_of_page above,Bool.false_eq_true,if_false]
    exact .ended (by simp)
  | true =>
  simp only [permits_of_page above,if_true]
  cases site : belowPage (c.obj.block s).start with
  | true =>
    refine .inl ⟨fun met => by simpa [site] using met.2.2.2.2.2.2,?_⟩
    rw [if_pos rfl]
    exact .failed (quiet.trans (quiet_rwx _ _))
  | false =>
    refine .inr ⟨⟨buffer,perm,null,by rw [made]; rfl,above,perm',site⟩,code,rfl,?_⟩
    rw [if_neg (by simp),springReady_moved]
    simp only [springMoved,setSnippet_self]

/-- The search and the buffer are the same in every run; what is built decides. -/
theorem springboardRun_eq {s : Nat} (chosen : (findSpringboard c w pt).1 = some s) : springboardRun c w pt a =
    match buildBlob c (findSpringboard c w pt).2 pt (baseEstimateRelocBlockSize (c.blockOf pt)) true a.blob with
    | none => (.aborts,(findSpringboard c w pt).2)
    | some (blob,w') => springboardInstall c w' pt s blob a := by
  unfold springboardRun
  generalize findSpringboard c w pt = found at chosen ⊢
  obtain ⟨spring,w'⟩ := found
  obtain rfl : spring = some s := chosen
  rfl

theorem springboard_cases (placed : Placed c w pt .springboard a) :
    let found := (findSpringboard c w pt).2
    let est := baseEstimateRelocBlockSize (c.blockOf pt)
    ¬Reaches c w pt a .springboard ∧ Stops c pt w (springboardRun c w pt a) ∨
    Reaches c w pt a .springboard ∧
      ∃ s code w', (findSpringboard c w pt).1 = some s ∧ springCode c s (springBuffer c a s) = some code ∧
        Built c (ensureBlob found pt est a.blob) pt true w' ∧
        let blob := blobBuffer c w pt a .springboard
        springboardRun c w pt a = (.returns true,
          installSpring c (springReady w' pt blob (springBuffer c a s) code) pt s blob (springBuffer c a s) a) := by
  intro found est
  have searched : Quiet c pt w found := quiet_findSpringboard w
  have ensured := quiet_ensureBlob (c := c) found pt est a.blob
  have buffer : ((ensureBlob found pt est a.blob).snippet pt).blob = blobBuffer c w pt a .springboard := by
    rw [ensureBlob_blob,(findSpringboard_snippet w pt).1]
    rfl
  have gens : Generates c (ensureBlob found pt est a.blob) pt true (blobBuffer c w pt a .springboard) ↔
      Generates c w pt true (blobBuffer c w pt a .springboard) := by
    simp only [Generates,ensureBlob_blobSize,found,(findSpringboard_snippet w pt).2]
  cases spring : (findSpringboard c w pt).1 with
  | none =>
    refine .inl ⟨fun reaches => ?_,?_⟩
    · obtain ⟨_,_,_,_,s,chosen,_⟩ := reaches
      rw [spring] at chosen
      cases chosen
    · have run : springboardRun c w pt a = (.returns false,found) := by
        simp only [springboardRun]
        rw [← Prod.mk.eta (p := findSpringboard c w pt),spring]
      rw [run]
      exact .failed searched
  | some s =>
  rw [springboardRun_eq spring]
  by_cases zero : blobBuffer c w pt a .springboard = 0
  · have null := @buildBlob_null c found pt est true a.blob (buffer.trans zero)
    refine .inl ⟨fun reaches => reaches.1 zero,?_⟩
    rw [null]
    simp only [springboardInstall,decide_true,Bool.true_or,if_true]
    exact .failed (searched.trans ensured)
  by_cases generates : Generates c w pt true (blobBuffer c w pt a .springboard)
  swap
  · have stuck : buildBlob c found pt est true a.blob = none :=
      buildBlob_stops (by rwa [buffer]) (by rw [buffer,gens]; exact generates)
    refine .inl ⟨fun reaches => generates reaches.2.1,?_⟩
    rw [stuck]
    exact .ended (by simp)
  obtain ⟨w',builds,built⟩ := buildBlob_built (c := c) found pt est true a.blob
    (by rwa [buffer]) (by rw [buffer,gens]; exact generates)
  rw [builds,buffer]
  have quiet := (searched.trans ensured).trans (built.quiet (by rw [buffer]; exact placed.blob true))
  have apart := fun moved made => placed.spring rfl s moved made
  have install := @springboardInstall_cases c w' pt a s _ zero
    fun moved made x inside => (apart moved made x inside).1
  rcases install with ⟨fails,stops⟩ | ⟨⟨buffer',perm,there,_,above,perm',site⟩,code,made,done⟩
  · refine .inl ⟨fun reaches => fails ?_,stops.after quiet⟩
    obtain ⟨_,_,buffer',perm,s',chosen,there,made,above,perm',site⟩ := reaches
    obtain rfl := Option.some.inj (spring.symm.trans chosen)
    exact ⟨buffer',perm,there,made,above,perm',site⟩
  · refine .inr ⟨⟨zero,generates,buffer',perm,s,spring,there,?_,above,perm',site⟩,
      s,code,w',rfl,made,built,done⟩
    simp [made]

end

end SelfPropelled.Workers
