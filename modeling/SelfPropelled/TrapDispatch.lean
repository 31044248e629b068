import SelfPropelled.Installations
import SelfPropelled.ReturnTrap

/-! Dispatch of traps, `TrapWorker::OnTrap`, in every run of installations: which blob
the trap at an installed point leads to. -/

namespace SelfPropelled.Workers
open Machine

/-- The address `TrapWorker::OnTrap` sets the program counter to, if it sets it. -/
def dispatch (w : World) (ctx : ReturnTrap.SpContext) (granted : Bool) (s : State) : Option Word :=
  match w.instMap (s.rip - 1) with
  | some _ => (onTrap w s.rip granted).map fun entered => (w.snippet entered.1).blob
  | none =>
    if ReturnTrap.getReturnAddress ctx.stackwalk = 0 then none
    else (ReturnTrap.onTrap {ctx with instMap := w.instMap} s).map fun t => t.rip

section
variable (c : Config)

/-- The program counter the kernel reports for the trap at a point: after a breakpoint,
at an undefined instruction. -/
def reportedPc (pt : Nat) : Word := if c.sigill then (c.blockOf pt).last else (c.blockOf pt).last + 1

/-- Only the point's own entry of the trap map changes, and only to the point. -/
structure Registers (pt : Nat) (w w' : World) : Prop where
  others : ∀ x, x ≠ (c.blockOf pt).last → w'.instMap x = w.instMap x
  own : w'.instMap (c.blockOf pt).last = w.instMap (c.blockOf pt).last ∨
    w'.instMap (c.blockOf pt).last = some pt

/-- Points are registered under their own call's address, those with a trap are, with
their blob, and instrumented points are in marked blocks. -/
structure Traps (w : World) : Prop where
  keys : ∀ x q, w.instMap x = some q → x = (c.blockOf q).last
  known : ∀ p, w.method p = some .trap → w.instMap (c.blockOf p).last = some p ∧ (w.snippet p).blob ≠ 0
  marked : ∀ p k, w.method p = some k → w.instrumented (c.point p).block = true

end

section
variable {c : Config} {pt : Nat} {w w' : World} {a : Answers} {k : InstallMethod}

theorem closed_registers : Closed c pt (Registers c pt) where
  refl _ := ⟨fun _ _ => rfl,.inl rfl⟩
  trans first second := by
    refine ⟨fun x other => (second.others x other).trans (first.others x other),?_⟩
    rcases second.own with same | mine
    · rw [same]
      exact first.own
    · exact .inr mine
  snippet _ _ _ := ⟨fun _ _ => rfl,.inl rfl⟩
  memory _ _ _ _ := ⟨fun _ _ => rfl,.inl rfl⟩
  spring _ _ _ _ := ⟨fun _ _ => rfl,.inl rfl⟩
  register _ := ⟨fun _ other => if_neg other,.inr (if_pos rfl)⟩

theorem registers_saved {ok : Bool} (saves : save c w pt k = (ok,w')) : Registers c pt w w' := by
  have registers := @Closed.save c pt _ closed_registers w k
  rwa [saves] at registers

theorem registers_ended {r : Result} (ended : worker c w pt a k = (r,w')) : Registers c pt w w' := by
  have registers := @Closed.worker c pt _ closed_registers w a k
  rwa [ended] at registers

theorem Layout.inside_last (layout : Layout c) (pt : Nat) :
    In (c.blockOf pt).start (c.blockOf pt).size (c.blockOf pt).last := by
  refine layout.in_last (c.point pt).block (Nat.le_refl _) ?_
  have call : 2 ≤ (c.obj.block (c.point pt).block).callSize := layout.call pt
  simp only [Config.blockOf,In,BitVec.sub_self,BitVec.toNat_zero]
  omega

theorem Layout.last_ne (layout : Layout c) {p q : Nat} (differ : (c.point p).block ≠ (c.point q).block) :
    (c.blockOf p).last ≠ (c.blockOf q).last := by
  intro same
  have first := layout.inside_last p
  rw [same] at first
  exact layout.apart _ _ differ _ first (layout.inside_last q)

theorem Traps.keeps (traps : Traps c w) (layout : Layout c)
    (unmarked : w.instrumented (c.point pt).block = false) (marks : Marks c pt w w')
    (registers : Registers c pt w w') : Traps c w' where
  keys x q listed := by
    by_cases here : x = (c.blockOf pt).last
    · subst here
      rcases registers.own with same | mine
      · rw [same] at listed
        exact traps.keys _ q listed
      · rw [mine] at listed
        cases listed
        rfl
    · rw [registers.others x here] at listed
      exact traps.keys x q listed
  known p trapped := by
    rw [marks.method] at trapped
    obtain ⟨listed,blob⟩ := traps.known p trapped
    have differ : (c.point p).block ≠ (c.point pt).block := by
      intro same
      have mark := traps.marked p _ trapped
      rw [same,unmarked] at mark
      cases mark
    have other : p ≠ pt := fun same => differ (same ▸ rfl)
    rw [registers.others _ (layout.last_ne differ),marks.others p other]
    exact ⟨listed,blob⟩
  marked p k method := by
    rw [marks.method] at method
    rw [marks.marked]
    exact traps.marked p k method

theorem buildBlob_blob {est : Nat} {reloc : Bool} {malloc : Nat → Word} {blob : Word}
    (built : buildBlob c w pt est reloc malloc = some (blob,w')) : (w'.snippet pt).blob = blob := by
  simp only [buildBlob] at built
  split at built
  next null =>
    cases built
    exact null
  · split at built
    · cases built
      rfl
    · split at built
      · cases built
      · cases built
        simp [World.setSnippet]

theorem trapRun_registers (done : trapRun c w pt a = (.returns true,w')) :
    w'.instMap (c.blockOf pt).last = some pt ∧ (w'.snippet pt).blob ≠ 0 := by
  simp only [trapRun] at done
  split at done
  · cases done
  split at done
  · cases done
  next blob w₁ built =>
    split at done
    · cases done
    next there =>
      split at done
      · cases done
      next w₂ permitted =>
        cases done
        have own := (closed_registers.buildBlob built).own
        have registered : (registerTrap c w pt).instMap (c.blockOf pt).last = some pt := if_pos rfl
        rw [registered,or_self] at own
        rw [setMemoryPermission_some permitted]
        refine ⟨own,?_⟩
        change (w₁.snippet pt).blob ≠ 0
        rwa [buildBlob_blob built]

section
variable {P : World → Nat → InstallMethod → Answers → Prop}

theorem Tries.traps {new : List Patch} {ok : Bool} (tries : Tries c P pt w new ok w') (layout : Layout c)
    (traps : Traps c w) (unmarked : w.instrumented (c.point pt).block = false) : Traps c w' := by
  induction tries with
  | nil w => exact traps
  | @skipped w w₁ w' k new ok saves later ih =>
    have marks := marks_saved saves
    exact ih (traps.keeps layout unmarked marks (registers_saved saves)) (by rw [marks.marked,unmarked])
  | @failed w w₁ w₂ w' k a ps new ok saves placed meets fails written later ih =>
    have marks := (marks_saved saves).trans (marks_ended fails)
    have registers := closed_registers.trans (registers_saved saves) (registers_ended fails)
    exact ih (traps.keeps layout unmarked marks registers) (by rw [marks.marked,unmarked])
  | @done w w₁ w₂ k a ps saves placed meets ends written =>
    have marks := (marks_saved saves).trans (marks_ended ends)
    have registers := closed_registers.trans (registers_saved saves) (registers_ended ends)
    have kept := traps.keeps layout unmarked marks registers
    refine ⟨kept.keys,fun p trapped => ?_,fun p k' method => ?_⟩
    · by_cases here : p = pt
      · subst here
        obtain rfl : k = .trap := by simpa [marked] using trapped
        have done : trapRun c w₁ p a = (.returns true,w₂) := ends
        have registered := trapRun_registers done
        exact registered
      · exact kept.known p (by simpa [marked,here] using trapped)
    · by_cases here : p = pt
      · subst here
        simp [marked]
      · have old : w₂.method p = some k' := by simpa [marked,here] using method
        simp [marked,kept.marked p k' old]

theorem Installs.traps {log : List Patch} (installs : Installs c P w log w') (layout : Layout c)
    (traps : Traps c w) : Traps c w' := by
  induction installs with
  | start => exact traps
  | next before unmarked tries ih => exact tries.traps layout ih unmarked

end

/-- In breakpoint mode the handler finds the point; in the other mode it looks one byte
below the trap, where no point is registered. -/
theorem Traps.lookup (traps : Traps c w) (layout : Layout c) (trapped : w.method pt = some .trap) :
    w.instMap (reportedPc c pt - 1) = if c.sigill then none else some pt := by
  have call := layout.call pt
  cases mode : c.sigill with
  | false =>
    have back : reportedPc c pt - 1 = (c.blockOf pt).last := by
      simp only [reportedPc,mode,Bool.false_eq_true,if_false]
      bv_omega
    rw [back]
    exact (traps.known pt trapped).1
  | true =>
    simp only [reportedPc,mode,if_true]
    cases listed : w.instMap ((c.blockOf pt).last - 1) with
    | none => rfl
    | some q =>
      -- a call of two bytes or more at the byte below would reach into this block
      exfalso
      have below := (traps.keys _ q listed).symm
      have other : (c.point q).block ≠ (c.point pt).block := by
        intro same
        simp only [Config.blockOf,same] at below
        bv_omega
      have reach : In (c.blockOf q).last 2 (c.blockOf pt).last := by
        rw [below]
        simp only [In]
        bv_omega
      have first := layout.in_last (c.point q).block (layout.call q) reach
      exact layout.apart _ _ other _ first (layout.inside_last pt)

end

/-- The tail-call block with traps at its points, of one kind or the other. -/
def trapNear (sigill : Bool) : Config := {tailNear with sigill := sigill}

theorem trapNear_layout (sigill : Bool) : Layout (trapNear sigill) :=
  ⟨tailNear_layout.apart,tailNear_layout.last,tailNear_layout.call⟩

def trapWorld (sigill : Bool) : World :=
  marked (trapNear sigill) (worker (trapNear sigill) nearWorld 1 (tailAnswers 0x520000) .trap).2 1 .trap

theorem trapNear_installs (sigill : Bool) : Installs (trapNear sigill) (fun _ _ _ _ => True) nearWorld
    [⟨1,.last,if sigill then 2 else 1⟩] (trapWorld sigill) := by
  have buffer : blobBuffer tailNear nearWorld 1 (tailAnswers 0x520000) .trap = 0x520000 := by decide +kernel
  have near : Placed tailNear nearWorld 1 .trap (tailAnswers 0x520000) :=
    tailNear_placed _ buffer (.inr rfl) tailNear_second (by simp)
  have placed : Placed (trapNear sigill) nearWorld 1 .trap (tailAnswers 0x520000) := ⟨near.blob,near.spring⟩
  have reaches : Reaches (trapNear sigill) nearWorld 1 (tailAnswers 0x520000) .trap := by
    have buffer' : blobBuffer (trapNear sigill) nearWorld 1 (tailAnswers 0x520000) .trap = 0x520000 := buffer
    rw [Reaches,buffer']
    exact ⟨by decide,.inr (by cases sigill <;> decide +kernel),by cases sigill <;> decide,rfl⟩
  have saves : save (trapNear sigill) nearWorld 1 .trap = (true,nearWorld) :=
    Prod.ext (by cases sigill <;> decide +kernel) rfl
  have written : Written (trapNear sigill) nearWorld 1 (tailAnswers 0x520000) .trap
      [⟨1,.last,if sigill then 2 else 1⟩] := .inl ⟨reaches,by cases sigill <;> decide +kernel⟩
  have ends : (worker (trapNear sigill) nearWorld 1 (tailAnswers 0x520000) .trap).1 = .returns true := by
    cases sigill <;> decide +kernel
  have whole : worker (trapNear sigill) nearWorld 1 (tailAnswers 0x520000) .trap =
      (.returns true,(worker (trapNear sigill) nearWorld 1 (tailAnswers 0x520000) .trap).2) := by
    rw [← ends]
  exact .next .start rfl (.done saves placed trivial whole written)

def idleContext : ReturnTrap.SpContext := ⟨[],fun _ => none,fun _ => none,fun _ => none,false⟩

def stoppedAt (pc : Word) : State := ⟨fun _ => 0,fun _ => 0,⟨false,false,false,false,false,false⟩,fun _ => 0,pc⟩

end SelfPropelled.Workers
