import SelfPropelled.BlobReuse

/-! The ranges of application code that installations write: where they lie, and when
those of different points are apart. -/

namespace SelfPropelled.Workers
open Machine

/-- What an attempt on a point does to the marks of blocks and to snippets: other snippets
stay, no block or point becomes instrumented, and the point's spring block stays or is a
suitable one that was found and marked. -/
structure Marks (c : Config) (pt : Nat) (w w' : World) : Prop where
  others : ∀ q, q ≠ pt → w'.snippet q = w.snippet q
  marked : w'.instrumented = w.instrumented
  method : w'.method = w.method
  spring : (w'.snippet pt).springBlk = (w.snippet pt).springBlk ∧ w'.isSpring = w.isSpring ∨
    ∃ s, (w.snippet pt).springBlk = none ∧ suitable c w.isSpring (c.blockOf pt).start s = true ∧
      (w'.snippet pt).springBlk = some s ∧ w'.isSpring = fun q => q == s || w.isSpring q

section
variable {c : Config} {pt : Nat} {w w' w'' : World} {a : Answers}

theorem Marks.refl : Marks c pt w w := ⟨fun _ _ => rfl,rfl,rfl,.inl ⟨rfl,rfl⟩⟩

theorem Marks.trans (first : Marks c pt w w') (second : Marks c pt w' w'') : Marks c pt w w'' := by
  refine ⟨fun q other => (second.others q other).trans (first.others q other),
    second.marked.trans first.marked,second.method.trans first.method,?_⟩
  rcases second.spring with ⟨same,marks⟩ | ⟨s,none,fits,found,marks⟩
  · rw [same,marks]
    exact first.spring
  · rcases first.spring with ⟨same',marks'⟩ | ⟨s',_,_,found',_⟩
    · exact .inr ⟨s,same' ▸ none,marks' ▸ fits,found,marks' ▸ marks⟩
    · rw [found'] at none
      cases none

/-- A relation that holds across every single change that saving and the workers make for
a point, and across any number of them. -/
structure Closed (c : Config) (pt : Nat) (R : World → World → Prop) : Prop where
  refl : ∀ w, R w w
  trans : ∀ {w w' w'' : World}, R w w' → R w' w'' → R w w''
  snippet : ∀ (w : World) (s : SnippetState), s.springBlk = (w.snippet pt).springBlk → R w (w.setSnippet pt s)
  memory : ∀ (w : World) mem rwx freed, R w {w with mem := mem, rwx := rwx, freed := freed}
  spring : ∀ (w : World) (s : Nat), (w.snippet pt).springBlk = none →
    suitable c w.isSpring (c.blockOf pt).start s = true →
    R w {w.setSnippet pt {w.snippet pt with springBlk := some s} with isSpring := fun q => q == s || w.isSpring q}
  register : ∀ w, R w (registerTrap c w pt)

theorem setMemoryPermission_some {b : Word} {n : Nat} {granted : Bool}
    (set : setMemoryPermission w b n granted = some w') : w' = {w with rwx := (b,n) :: w.rwx} := by
  simp only [setMemoryPermission,Option.ite_none_right_eq_some,Option.some.injEq] at set
  exact set.2.symm

namespace Closed
variable {R : World → World → Prop} (closed : Closed c pt R)
include closed

theorem write (w : World) (b : Word) (bs : List Byte) : R w (w.write b bs) :=
  closed.memory w (storeBytes w.mem b bs) w.rwx w.freed

theorem freed (w : World) (freed : Word → Bool) : R w {w with freed := freed} :=
  closed.memory w w.mem w.rwx freed

theorem permission {b : Word} {n : Nat} {granted : Bool}
    (set : setMemoryPermission w b n granted = some w') : R w w' := by
  rw [setMemoryPermission_some set]
  exact closed.memory w w.mem _ w.freed

theorem getBlob (w : World) (est : Nat) (malloc : Nat → Word) : R w (getBlob w pt est malloc) :=
  closed.trans (closed.snippet w {w.snippet pt with blob := malloc est} rfl) (closed.freed _ _)

theorem ensureBlob (w : World) (est : Nat) (malloc : Nat → Word) : R w (ensureBlob w pt est malloc) := by
  unfold Workers.ensureBlob
  split
  · exact closed.getBlob w est malloc
  · exact closed.refl w

theorem buildBlob {est : Nat} {reloc : Bool} {malloc : Nat → Word} {blob : Word}
    (built : buildBlob c w pt est reloc malloc = some (blob,w')) : R w w' := by
  have ensured := closed.ensureBlob w est malloc
  simp only [Workers.buildBlob] at built
  split at built
  · cases built
    exact ensured
  · split at built
    · cases built
      exact ensured
    · split at built
      · cases built
      · cases built
        refine closed.trans (closed.trans ensured (closed.write _ _ _)) (closed.snippet _ _ ?_)
        rfl

theorem findSpringboard (w : World) : R w (findSpringboard c w pt).2 := by
  rcases findSpringboard_cases (c := c) w pt with ⟨s,_,eq⟩ | ⟨none,eq | ⟨s,fits,eq⟩⟩
  · rw [eq]
    exact closed.refl w
  · rw [eq]
    exact closed.refl w
  · rw [eq]
    exact closed.spring w s none fits

theorem save (w : World) (k : InstallMethod) : R w (save c w pt k).2 := by
  cases k with
  | springboard =>
    have searched := closed.findSpringboard w
    simp only [Workers.save]
    cases found : Workers.findSpringboard c w pt with
    | mk s w' =>
      rw [found] at searched
      cases s <;> exact searched
  | trap | relocInsn | relocBlk => exact closed.refl w

theorem callInsnInstall (w : World) : R w (callInsnInstall c w pt a).2 := by
  simp only [Workers.callInsnInstall]
  split
  · exact closed.refl w
  split
  · exact closed.refl w
  next blob w₁ built =>
    have made := closed.buildBlob built
    split
    · exact made
    split
    · exact made
    split
    · exact made
    split
    · exact made
    next w₂ permitted =>
      have patched := closed.trans (closed.trans made (closed.permission permitted))
        (closed.write w₂ (c.blockOf pt).last (callInsnJump (c.blockOf pt) blob))
      split
      · exact closed.trans patched (closed.freed _ _)
      next w₃ permitted' => exact closed.trans patched (closed.permission permitted')

theorem callInsnRun (w : World) : R w (callInsnRun c w pt a).2 := by
  have got := closed.getBlob w baseEstimateRelocInsnSize a.blob
  simp only [Workers.callInsnRun]
  split
  · exact closed.refl w
  split
  · exact closed.refl w
  split
  · exact got
  split
  · exact got
  · exact closed.trans got (closed.callInsnInstall _)

theorem installJumpToBlock (w : World) (jump : List Byte) : R w (installJumpToBlock c w pt a jump).2 := by
  simp only [Workers.installJumpToBlock]
  split
  · exact closed.refl w
  next blob w₁ built =>
    have made := closed.buildBlob built
    split
    · exact made
    split
    · exact made
    next w₂ permitted =>
      have ready := closed.trans made (closed.permission permitted)
      split
      · exact ready
      split
      · exact ready
      next w₃ permitted' =>
        exact closed.trans (closed.trans ready (closed.permission permitted')) (closed.write _ _ _)

theorem callBlockRun (w : World) : R w (callBlockRun c w pt a).2 := by
  have got := closed.getBlob w (baseEstimateRelocBlockSize (c.blockOf pt)) a.blob
  simp only [Workers.callBlockRun]
  split
  · exact got
  split
  · exact got
  split
  · exact closed.trans got (closed.installJumpToBlock _ _)
  split
  · exact closed.trans got (closed.installJumpToBlock _ _)
  · exact got

theorem installSpring (w : World) (s : Nat) (blob spring : Word) : R w (installSpring c w pt s blob spring a) := by
  rw [installSpring_eq]
  cases permits (c.obj.block s).start a.springBlkPerm <;> cases permits (c.blockOf pt).start a.codePerm
  · exact closed.refl w
  · exact closed.memory w _ _ w.freed
  · exact closed.memory w _ _ w.freed
  · exact closed.memory w _ _ w.freed

theorem relocateSpring {s : Nat} {spring : Word} {malloc : Nat → Word}
    (moved : relocateSpring c w pt s malloc = .ok (spring,w')) : R w w' := by
  simp only [Workers.relocateSpring] at moved
  split at moved
  · cases moved
  split at moved
  · cases moved
  next code made =>
    obtain ⟨rfl,rfl⟩ := Prod.mk.inj (Except.ok.inj moved)
    refine closed.trans (closed.trans (closed.freed w _) (closed.write _ _ _)) (closed.snippet _ _ ?_)
    rfl

theorem springboardInstall (w : World) (s : Nat) (blob : Word) :
    R w (springboardInstall c w pt s blob a).2 := by
  simp only [Workers.springboardInstall]
  split
  · exact closed.refl w
  split
  · exact closed.refl w
  next w₁ permitted =>
    have ready := closed.permission permitted
    split
    · exact ready
    next spring w₂ moved =>
      have relocated := closed.trans ready (closed.relocateSpring moved)
      split
      · exact relocated
      split
      · exact relocated
      next w₃ permitted' =>
        have permitted := closed.trans relocated (closed.permission permitted')
        split
        · exact permitted
        · exact closed.trans permitted (closed.installSpring _ _ _ _)

theorem springboardRun (w : World) : R w (springboardRun c w pt a).2 := by
  have searched := closed.findSpringboard w
  simp only [Workers.springboardRun]
  split
  next w₁ found =>
    rw [found] at searched
    exact searched
  next s w₁ found =>
    rw [found] at searched
    split
    · exact searched
    next blob w₂ built =>
      exact closed.trans (closed.trans searched (closed.buildBlob built)) (closed.springboardInstall _ _ _)

theorem trapRun (w : World) : R w (trapRun c w pt a).2 := by
  have registered := closed.register w
  simp only [Workers.trapRun]
  split
  · exact registered
  split
  · exact registered
  next blob w₁ built =>
    have made := closed.trans registered (closed.buildBlob built)
    split
    · exact made
    split
    · exact made
    next w₂ permitted => exact closed.trans (closed.trans made (closed.permission permitted)) (closed.write _ _ _)

theorem worker (w : World) (a : Answers) (k : InstallMethod) : R w (worker c w pt a k).2 := by
  cases k with
  | relocInsn => exact closed.callInsnRun w
  | relocBlk => exact closed.callBlockRun w
  | springboard => exact closed.springboardRun w
  | trap => exact closed.trapRun w

end Closed

theorem closed_marks : Closed c pt (Marks c pt) where
  refl _ := .refl
  trans := .trans
  snippet w s kept := by
    refine ⟨fun q other => ?_,rfl,rfl,.inl ⟨?_,rfl⟩⟩
    · simp [World.setSnippet,other]
    · simpa [World.setSnippet] using kept
  memory _ _ _ _ := ⟨fun _ _ => rfl,rfl,rfl,.inl ⟨rfl,rfl⟩⟩
  spring w s none fits := by
    refine ⟨fun q other => ?_,rfl,rfl,.inr ⟨s,none,fits,?_,rfl⟩⟩
    · simp [World.setSnippet,other]
    · simp [World.setSnippet]
  register _ := ⟨fun _ _ => rfl,rfl,rfl,.inl ⟨rfl,rfl⟩⟩

theorem marks_save (w : World) (k : InstallMethod) : Marks c pt w (save c w pt k).2 :=
  closed_marks.save w k

theorem marks_worker (w : World) (a : Answers) (k : InstallMethod) :
    Marks c pt w (worker c w pt a k).2 :=
  closed_marks.worker w a k

end

/-- Where in the code a patch starts: at the call instruction, at the call block or at a
spring block. -/
inductive Place
  | last
  | start
  | spring (s : Nat)
deriving DecidableEq, Repr

/-- A range of code written for a point. -/
structure Patch where
  pt : Nat
  place : Place
  length : Nat
deriving DecidableEq, Repr

section
variable (c : Config)

def Patch.address (p : Patch) : Word :=
  match p.place with
  | .last => (c.blockOf p.pt).last
  | .start => (c.blockOf p.pt).start
  | .spring s => (c.obj.block s).start

def Patch.Has (p : Patch) (x : Word) : Prop := In (p.address c) p.length x

/-- What a worker writes to the code once its checks are passed. -/
def patches (w : World) (pt : Nat) (a : Answers) : InstallMethod → List Patch
  | .relocInsn => [⟨pt,.last,5⟩]
  | .relocBlk =>
    if a.codePerm then
      [⟨pt,.start,(callBlockJump (c.blockOf pt) (blobBuffer c w pt a .relocBlk)).length⟩]
    else []
  | .springboard =>
    match (findSpringboard c w pt).1 with
    | none => []
    | some s =>
      (if a.springBlkPerm then [⟨pt,.spring s,jumpAbsSize * 2⟩] else []) ++
        if permits (c.blockOf pt).start a.codePerm then [⟨pt,.start,2⟩] else []
  | .trap => [⟨pt,.last,(trapBytes c).length⟩]

/-- The patch lies in the point's call block, or in front of the last instruction of a
suitable spring block. -/
def Patch.Fits (p : Patch) : Prop :=
  0 < p.length ∧
  match p.place with
  | .last => p.length ≤ (c.blockOf p.pt).callSize
  | .start => p.length ≤ (c.blockOf p.pt).size
  | .spring s => p.length = jumpAbsSize * 2 ∧ SpringOk c (c.blockOf p.pt).start s

/-- The writes to the code of an attempt that returned. -/
def Written (w : World) (pt : Nat) (a : Answers) (k : InstallMethod) (ps : List Patch) : Prop :=
  Reaches c w pt a k ∧ ps = patches c w pt a k ∨ ¬Reaches c w pt a k ∧ ps = []

end

section
variable {c : Config} {pt : Nat} {w f : World} {a : Answers} {k : InstallMethod}

theorem patches_fit (layout : Layout c) (springs : SpringsOk c pt w) (reaches : Reaches c w pt a k) :
    ∀ p ∈ patches c w pt a k, p.pt = pt ∧ p.Fits c := by
  intro p listed
  cases k with
  | relocInsn =>
    obtain rfl := List.mem_singleton.mp listed
    exact ⟨rfl,Nat.succ_pos _,reaches.2.2.1⟩
  | trap =>
    obtain rfl := List.mem_singleton.mp listed
    refine ⟨rfl,?_,Nat.le_trans (length_trapBytes c) (layout.call pt)⟩
    simp only [trapBytes]
    split <;> decide
  | relocBlk =>
    simp only [patches] at listed
    split at listed
    · obtain rfl := List.mem_singleton.mp listed
      refine ⟨rfl,?_,length_callBlockJump reaches.2.2.2.1 reaches.2.2.1⟩
      simp only [callBlockJump]
      split <;> simp [emitJumpAbs]
    · cases listed
  | springboard =>
    simp only [patches] at listed
    split at listed
    · cases listed
    next s chosen =>
      rcases List.mem_append.mp listed with first | second
      · split at first
        · obtain rfl := List.mem_singleton.mp first
          exact ⟨rfl,by simp [jumpAbsSize],rfl,springs.chosen chosen⟩
        · cases first
      · split at second
        · obtain rfl := List.mem_singleton.mp second
          exact ⟨rfl,by simp,Nat.le_trans (layout.call pt) (layout.size_ge _)⟩
        · cases second

theorem Built.code {w₁ w' : World} {reloc : Bool} (built : Built c w₁ pt reloc w') (placed : Placed c w pt k a)
    (mem : w₁.mem = w.mem) (blob : (w₁.snippet pt).blob = blobBuffer c w pt a k) {x : Word}
    (code : HasCode c x) : w'.mem x = w.mem x := by
  rw [← mem]
  refine built.outside fun code' generated inside => ?_
  rw [blob] at generated inside
  exact placed.blob reloc code' generated x inside code

theorem stops_of_idle (placed : Placed c w pt k a) (idle : ¬Reaches c w pt a k) :
    Stops c pt w (worker c w pt a k) := by
  cases k with
  | trap => exact ((trap_cases placed).resolve_right fun either => idle either.1).2
  | relocInsn => exact ((callInsn_cases placed).resolve_right fun either => idle either.1).2
  | relocBlk => exact ((callBlock_cases placed).resolve_right fun either => idle either.1).2
  | springboard => exact ((springboard_cases placed).resolve_right fun either => idle either.1).2

theorem Written.code_kept {ps : List Patch} (written : Written c w pt a k ps) (placed : Placed c w pt k a)
    {ok : Bool} (ended : worker c w pt a k = (.returns ok,f)) {x : Word} (code : HasCode c x)
    (away : ∀ p ∈ ps, ¬p.Has c x) : f.mem x = w.mem x := by
  rcases written with ⟨reaches,rfl⟩ | ⟨idle,rfl⟩
  swap
  · have stops := stops_of_idle placed idle
    rw [ended] at stops
    cases ok with
    | true => exact absurd rfl stops.1
    | false => exact (stops.2 rfl).code x code
  cases k with
  | trap =>
    obtain ⟨_,w',built,run⟩ := (trap_cases placed).resolve_left fun either => either.1 reaches
    obtain ⟨_,rfl⟩ := Prod.mk.inj (ended.symm.trans run)
    have kept := built.code placed (by simp) (ensureBlob_blob _ _ _ _) code
    refine (storeBytes_outside _ _ _ _ fun site => ?_).trans kept
    exact away ⟨pt,.last,(trapBytes c).length⟩ (by simp [patches]) site
  | relocInsn =>
    obtain ⟨_,w',built,run⟩ := (callInsn_cases placed).resolve_left fun either => either.1 reaches
    have kept := built.code placed rfl (by simp [blobBuffer]) code
    have patched : f.mem = storeBytes w'.mem (c.blockOf pt).last
        (callInsnJump (c.blockOf pt) (a.blob baseEstimateRelocInsnSize)) := by
      have run' := ended.symm.trans run
      split at run' <;> obtain ⟨_,rfl⟩ := Prod.mk.inj run' <;> rfl
    rw [patched]
    refine (storeBytes_outside _ _ _ _ fun site => ?_).trans kept
    rw [length_callInsnJump] at site
    exact away ⟨pt,.last,5⟩ (by simp [patches]) site
  | relocBlk =>
    obtain ⟨_,w',built,run⟩ := (callBlock_cases placed).resolve_left fun either => either.1 reaches
    obtain ⟨_,rfl⟩ := Prod.mk.inj (ended.symm.trans run)
    have kept := built.code placed rfl (by simp [blobBuffer]) code
    cases perm : a.codePerm with
    | false => exact kept
    | true =>
      refine (storeBytes_outside _ _ _ _ fun site => ?_).trans kept
      refine away ⟨pt,.start,_⟩ ?_ site
      simp [patches,perm,blobBuffer]
  | springboard =>
    obtain ⟨_,s,moved,w',chosen,made,built,run⟩ :=
      (springboard_cases placed).resolve_left fun either => either.1 reaches
    obtain ⟨_,rfl⟩ := Prod.mk.inj (ended.symm.trans run)
    have ready := springReady_code placed made built code
    simp only [patches,chosen] at away
    rw [installSpring_eq]
    have hop : permits (c.blockOf pt).start a.codePerm = true → ¬In (c.blockOf pt).start 2 x :=
      fun permitted => away ⟨pt,.start,2⟩ (by simp [permitted])
    have jumps : permits (c.obj.block s).start a.springBlkPerm = true →
        ¬In (c.obj.block s).start (jumpAbsSize * 2) x := fun permitted => by
      have granted : a.springBlkPerm = true := (Bool.and_eq_true_iff.mp permitted).2
      exact away ⟨pt,.spring s,jumpAbsSize * 2⟩ (by simp [granted])
    -- the call block last, the spring block before it
    have second : ∀ m, permits (c.blockOf pt).start a.codePerm = true →
        ∀ d, storeBytes m (c.blockOf pt).start [0xeb,d] x = m x :=
      fun m permitted d => storeBytes_outside _ _ _ _ (hop permitted)
    have first : ∀ m, permits (c.obj.block s).start a.springBlkPerm = true → storeBytes m (c.obj.block s).start
        (springJumps (blobBuffer c w pt a .springboard) (springBuffer c a s)) x = m x :=
      fun m permitted => storeBytes_outside _ _ _ _ (by rw [length_springJumps]; exact jumps permitted)
    split
    next permitted =>
      refine (second _ permitted _).trans ?_
      split
      next granted => exact (first _ granted).trans ready
      next => exact ready
    next =>
      split
      next granted => exact (first _ granted).trans ready
      next => exact ready

end

end SelfPropelled.Workers
