import SelfPropelled.WorkerAtomicity

/-! The loop of the instrumenter over its workers: a point is instrumented by one
worker, or its code is as it was. -/

namespace SelfPropelled.Workers
open Machine

section
variable {c : Config} {w : World} {pt : Nat} {a : Answers} {k : InstallMethod}

/-- The condition under which a worker's run is atomic. -/
def Meets (c : Config) (w : World) (pt : Nat) (a : Answers) (k : InstallMethod) : Prop :=
  Reaches c w pt a k → Completes c w pt a k ∧ Usable c w pt a k

theorem atomic_worker (layout : Layout c) (sound : Sound c w pt) (placed : Placed c w pt k a) :
    Atomic c w pt k (worker c w pt a k) ↔ Meets c w pt a k := by
  cases k with
  | trap => exact atomic_trap layout sound placed
  | relocInsn => exact atomic_callInsn layout sound placed
  | relocBlk => exact atomic_callBlock layout placed
  | springboard => exact atomic_springboard layout sound placed

theorem Meets.failed (meets : Meets c w pt a k) (placed : Placed c w pt k a)
    (failed : (worker c w pt a k).1 = .returns false) : Quiet c pt w (worker c w pt a k).2 := by
  have succeeds : ∀ {run : Result × World} {w' : World}, run = (.returns true,w') → run.1 ≠ .returns false := by
    rintro run w' rfl
    simp
  cases k with
  | trap =>
    rcases trap_cases placed with ⟨_,stops⟩ | ⟨_,w',_,run⟩
    · exact stops.2 failed
    · exact absurd failed (succeeds run)
  | relocInsn =>
    rcases callInsn_cases placed with ⟨_,stops⟩ | ⟨reaches,w',_,run⟩
    · exact stops.2 failed
    · dsimp only at run
      rw [if_pos (meets reaches).1.1] at run
      exact absurd failed (succeeds run)
  | relocBlk =>
    rcases callBlock_cases placed with ⟨_,stops⟩ | ⟨_,w',_,run⟩
    · exact stops.2 failed
    · exact absurd failed (succeeds run)
  | springboard =>
    rcases springboard_cases placed with ⟨_,stops⟩ | ⟨_,s,code,w',_,_,_,run⟩
    · exact stops.2 failed
    · exact absurd failed (succeeds run)

theorem quiet_save (w : World) : Quiet c pt w (save c w pt k).2 := by
  cases k with
  | springboard =>
    have searched : Quiet c pt w (findSpringboard c w pt).2 := quiet_findSpringboard w
    simp only [save]
    cases found : findSpringboard c w pt with
    | mk s w' =>
      rw [found] at searched
      cases s <;> exact searched
  | trap | relocInsn | relocBlk => exact .refl

end

section
variable (c : Config) (pt : Nat) (answers : InstallMethod → Answers)

/-- Every worker that is tried meets its condition in the world it is tried in. -/
def Attempts : World → List InstallMethod → Prop
  | _, [] => True
  | w, k :: rest =>
    let saved := save c w pt k
    let run := worker c saved.2 pt (answers k) k
    (saved.1 = true → Placed c saved.2 pt k (answers k) ∧ Meets c saved.2 pt (answers k) k ∧
      (run.1 = .returns false → Attempts run.2 rest)) ∧
    (saved.1 = false → Attempts saved.2 rest)

theorem led_record (w : World) (instrumented : Nat → Bool) (method : Nat → Option InstallMethod)
    (k : InstallMethod) :
    Led c {w with instrumented := instrumented, method := method} pt k ↔ Led c w pt k := by
  cases k with
  | trap =>
    have handled : ∀ pc, (onTrap {w with instrumented := instrumented, method := method} pc true).map (·.1) =
        (onTrap w pc true).map (·.1) := by
      intro pc
      simp only [onTrap]
      split
      · rfl
      · split <;> rfl
    simp only [Led,PatchLeads,handled]
  | relocInsn | relocBlk | springboard => exact Iff.rfl

/-- What becomes of a point: one worker alone has patched the code, which leads to
its blob, and the block is marked; or nothing has happened to the code and no
block is marked. -/
def Settled (w : World) (ks : List InstallMethod) : Result × World → Prop
  | (.returns true,w') => ∃ k ∈ ks, Led c w' pt k ∧ w'.instrumented (c.point pt).block = true ∧
      w'.method pt = some k ∧ ∃ before, Untouched c w before ∧
        (worker c before pt (answers k) k).1 = .returns true ∧
        (worker c before pt (answers k) k).2.mem = w'.mem
  | (.returns false,w') => Untouched c w w'
  | (.exits,_) | (.aborts,_) | (.faults,_) => True

variable {c pt answers}

theorem Settled.after {w w₁ : World} {ks ks' : List InstallMethod} {run : Result × World}
    (settled : Settled c pt answers w₁ ks run) (quiet : Quiet c pt w w₁) (listed : ∀ k ∈ ks, k ∈ ks') :
    Settled c pt answers w ks' run := by
  have before : ∀ {w'}, Untouched c w₁ w' → Untouched c w w' := fun later =>
    ⟨fun x code => (later.code x code).trans (quiet.code x code),
      fun p target dead => quiet.untouched.jumps p target (later.jumps p target dead),
      later.marks.trans quiet.marks⟩
  obtain ⟨result,w'⟩ := run
  cases result with
  | returns ok =>
    cases ok with
    | true =>
      obtain ⟨k,member,led,marked,method,start,untouched,done⟩ := settled
      exact ⟨k,listed k member,led,marked,method,start,before untouched,done⟩
    | false => exact before settled
  | exits | aborts | faults => trivial

/-- The loop over the workers, by induction on those left to try. -/
theorem tryWorkers_settled (layout : Layout c) {w : World} {ks : List InstallMethod}
    (sound : Sound c w pt) (attempts : Attempts c pt answers w ks) :
    Settled c pt answers w ks (tryWorkers c w pt answers ks) := by
  induction ks generalizing w with
  | nil => exact (Quiet.refl : Quiet c pt w w).untouched
  | cons k rest ih =>
    have kept : Quiet c pt w (save c w pt k).2 := quiet_save w
    obtain ⟨tried,skipped⟩ := attempts
    have later : ∀ k' ∈ rest, k' ∈ k :: rest := fun _ => List.mem_cons_of_mem k
    unfold tryWorkers
    cases saves : save c w pt k with
    | mk ok saved =>
    rw [saves] at kept tried skipped
    cases ok with
    | false => exact (ih (kept.sound layout sound) (skipped rfl)).after kept later
    | true =>
      obtain ⟨placed,meets,next⟩ := tried rfl
      have atomic := (atomic_worker layout (kept.sound layout sound) placed).mpr meets
      have gaveUp := meets.failed placed
      dsimp only at next gaveUp ⊢
      cases run : worker c saved pt (answers k) k with
      | mk result w' =>
      rw [run] at atomic gaveUp next
      cases result with
      | returns done =>
        cases done with
        | true =>
          refine ⟨k,List.mem_cons_self,(led_record c pt w' _ _ k).mpr atomic,by simp,by simp,saved,kept.untouched,?_,?_⟩
          · rw [run]
          · rw [run]
        | false =>
          have quiet := kept.trans (gaveUp rfl)
          exact (ih (quiet.sound layout sound) (next rfl)).after quiet later
      | exits | aborts | faults => trivial

/-- Patch installation is atomic exactly when, once its checks are passed, the rest
of the installation works and the blob holds this worker's code; and then each
point is either instrumented by one worker or untouched. -/
theorem patch_atomic_iff (layout : Layout c) (w : World) (sound : Sound c w pt) :
    (∀ k a, Placed c w pt k a → (Atomic c w pt k (worker c w pt a k) ↔ Meets c w pt a k)) ∧
      (Attempts c pt answers w c.workers →
        Settled c pt answers w c.workers (instrumentPoint c w pt answers)) := by
  refine ⟨fun k a placed => atomic_worker layout sound placed,fun attempts => ?_⟩
  unfold instrumentPoint
  dsimp only
  split
  · exact (Quiet.refl : Quiet c pt w w).untouched
  · split
    · trivial
    · split
      · exact (Quiet.refl : Quiet c pt w w).untouched
      · exact tryWorkers_settled layout sound attempts

end

/-- An object of one block, a five-byte call to 0x402000, and its one point. -/
def nearCall : Config where
  lib := ⟨isDisp32,fun _ => false,fun _ => 0⟩
  obj := {
    loadAddr := 0
    block := fun b => if b = 0 then
        ⟨0x401000,0x401005,⟨[],0x401000,⟨[],false,false,[],[],[],[],[],none⟩⟩,false,true,true⟩
      else ⟨0,0,⟨[],0,⟨[],false,false,[],[],[],[],[],none⟩⟩,false,false,false⟩
    regions := []
    findBlocks := fun _ _ => [] }
  point := fun _ => ⟨0,some 0x402000,0x10,0x20,0x30,0x600000,true⟩
  wrapperEntry := 0x7f0000001000
  wrapperExit := 0x7f0000002000
  workers := [.relocInsn]
  sigill := false
  directcallOnly := false
  noTailcall := false

def nearWorld : World where
  mem := fun x => if x = 0x401000 then 0xe8 else 0
  rwx := []
  freed := fun _ => false
  isSpring := fun _ => false
  instrumented := fun _ => false
  snippet := fun _ => .fresh
  method := fun _ => none
  instMap := fun _ => none

def nearAnswers (blobPerm : Bool) : Answers := ⟨fun _ => 0x500000,fun _ => 0,blobPerm,true,true,true⟩

theorem nearCall_layout : Layout nearCall where
  apart := by
    intro i j differ x first second
    by_cases zero : i = 0
    · have other : j ≠ 0 := fun same => differ (zero.trans same.symm)
      simp [nearCall,other,Block.size,In] at second
    · simp [nearCall,zero,Block.size,In] at first
  last := by
    intro b
    by_cases zero : b = 0
    · subst zero
      decide
    · simp [nearCall,zero,Block.size,Block.callSize,Block.last]
  call := by
    intro pt
    change 2 ≤ (0x401005 - 0x401000 : Word).toNat
    decide

theorem nearCall_sound : Sound nearCall nearWorld 0 where
  calls := fun _ => by decide +kernel
  traps := by simp [nearWorld]
  springs := by simp [nearWorld,SnippetState.fresh]

theorem nearCall_code {x : Word} (code : HasCode nearCall x) : In 0x401000 5 x := by
  obtain ⟨b,inside⟩ := code
  by_cases zero : b = 0
  · subst zero
    exact inside
  · simp [nearCall,zero,Block.size,In] at inside

theorem nearCall_generates (reloc : Bool) : ∃ code,
    (nearCall.snippet 0).generate nearCall.lib reloc 0x500000 = some code ∧ code.length = 386 :=
  Option.map_eq_some_iff.mp (by cases reloc <;> decide +kernel)

theorem nearCall_placed (blobPerm : Bool) : Placed nearCall nearWorld 0 .relocInsn (nearAnswers blobPerm) where
  blob := by
    intro reloc code generated x inside site
    change (nearCall.snippet 0).generate nearCall.lib reloc 0x500000 = some code at generated
    obtain ⟨code',made,length⟩ := nearCall_generates reloc
    obtain rfl : code' = code := Option.some.inj (made.symm.trans generated)
    have near := nearCall_code site
    simp only [nearAnswers,blobBuffer,length,In] at inside near
    bv_omega
  spring := fun mode => by cases mode

theorem nearCall_reaches (blobPerm : Bool) :
    Reaches nearCall nearWorld 0 (nearAnswers blobPerm) .relocInsn := by
  refine ⟨by change (0x500000 : Word) ≠ 0; decide,.inr ?_,by decide +kernel,rfl,?_,?_,?_,rfl,rfl⟩
  · obtain ⟨code,made,_⟩ := nearCall_generates false
    exact Option.isSome_iff_exists.mpr ⟨code,made⟩
  · change isDisp32 (0x500000 - 0x401000) = true
    decide
  · change belowPage 0x401000 = false
    decide
  · change belowPage 0x500000 = false
    decide

/-- The jump is written before the blob may be executed; when that is refused, the
worker frees the blob, returns false and leaves the jump. -/
theorem nearCall_not_atomic : Layout nearCall ∧ Sound nearCall nearWorld 0 ∧
    Placed nearCall nearWorld 0 .relocInsn (nearAnswers false) ∧
    ¬Atomic nearCall nearWorld 0 .relocInsn (worker nearCall nearWorld 0 (nearAnswers false) .relocInsn) := by
  refine ⟨nearCall_layout,nearCall_sound,nearCall_placed false,fun atomic => ?_⟩
  have meets := (atomic_worker nearCall_layout nearCall_sound (nearCall_placed false)).mp atomic
  exact Bool.noConfusion (meets (nearCall_reaches false)).1.1

theorem nearCall_meets : Meets nearCall nearWorld 0 (nearAnswers true) .relocInsn := by
  intro reaches
  refine ⟨⟨rfl,?_⟩,?_,.inl rfl⟩
  · change Fits32 (0x500000 - 0x401000 - 5)
    decide
  · obtain ⟨code,made,_⟩ := nearCall_generates false
    exact ⟨code,made,.inl rfl,.inl ⟨by decide,.inl rfl⟩⟩

theorem patch_atomic_iff_nearCall :
    Atomic nearCall nearWorld 0 .relocInsn (worker nearCall nearWorld 0 (nearAnswers true) .relocInsn) ∧
      Settled nearCall 0 (fun _ => nearAnswers true) nearWorld nearCall.workers
        (instrumentPoint nearCall nearWorld 0 fun _ => nearAnswers true) := by
  have both := @patch_atomic_iff nearCall 0 (fun _ => nearAnswers true) nearCall_layout nearWorld nearCall_sound
  have atomic := (both.1 _ _ (nearCall_placed true)).mpr nearCall_meets
  have started : (save nearCall nearWorld 0 .relocInsn) = (true,nearWorld) := rfl
  refine ⟨atomic,both.2 ⟨fun _ => ?_,fun stopped => ?_⟩⟩
  · rw [started]
    exact ⟨nearCall_placed true,nearCall_meets,fun _ => trivial⟩
  · rw [started] at stopped
    cases stopped

end SelfPropelled.Workers
