import SelfPropelled.WorkerLoop
import SelfPropelled.Library.Run

/-! The copy of its code that a block keeps, `SpBlock::save` of `cfg.cc`, over any
attempts of workers on any points. -/

namespace SelfPropelled.Workers
open Machine Library

structure SavedBlock where
  origCallAddr : Word
  origCallInsn : Option Instruction
  origCode : List Byte

/-- The call instruction is decoded from the object file the parser has read, the
code is copied from memory. -/
def Block.save (b : Block) (m : Memory) (s : SavedBlock) : Bool × SavedBlock :=
  let s := {s with
    origCallAddr := b.last
    origCallInsn := if b.saves then some b.code.origCallInsn else none}
  if s.origCallInsn.isNone then (false,s)
  else (true,{s with origCode := s.origCode ++ bytesAt m b.start b.size})

structure Saving where
  world : World
  saved : Nat → SavedBlock

structure Attempt where
  pt : Nat
  method : InstallMethod
  answers : Answers

section
variable (c : Config)

def saveBlock (m : Memory) (saved : Nat → SavedBlock) (b : Nat) : Bool × (Nat → SavedBlock) :=
  let (ok,s) := (c.obj.block b).save m (saved b)
  (ok,fun q => if q = b then s else saved q)

/-- `InstWorkerDelegate::save` with what it saves; the springboard worker saves the
call block only after the spring block. -/
def Saving.save (s : Saving) (pt : Nat) : InstallMethod → Bool × Saving
  | .springboard =>
    match findSpringboard c s.world pt with
    | (none,w) => (false,⟨w,s.saved⟩)
    | (some spring,w) =>
      match saveBlock c w.mem s.saved spring with
      | (false,saved) => (false,⟨w,saved⟩)
      | (true,saved) =>
        let (ok,saved) := saveBlock c w.mem saved (c.point pt).block
        (ok,⟨w,saved⟩)
  | .trap | .relocInsn | .relocBlk =>
    let (ok,saved) := saveBlock c s.world.mem s.saved (c.point pt).block
    (ok,⟨s.world,saved⟩)

/-- One worker is tried on one point. -/
def Saving.attempt (s : Saving) (e : Attempt) : Saving :=
  match s.save c e.pt e.method with
  | (false,s) => s
  | (true,s) => {s with world := (worker c s.world e.pt e.answers e.method).2}

def Saving.start (w : World) : Saving := ⟨w,fun _ => ⟨0,none,[]⟩⟩

/-- Every block that has saved its code holds the bytes from before any patch, once,
and the original call instruction. -/
def SavedOriginal (m₀ : Memory) (s : Saving) : Prop :=
  ∀ b, (s.saved b).origCallInsn.isSome = true →
    (s.saved b).origCode = bytesAt m₀ (c.obj.block b).start (c.obj.block b).size ∧
      (s.saved b).origCallInsn = some (c.obj.block b).code.origCallInsn

def saves (w : World) (pt : Nat) : InstallMethod → List Nat
  | .springboard =>
    match (findSpringboard c w pt).1 with
    | none => []
    | some spring =>
      if (c.obj.block spring).saves then
        spring :: if (c.blockOf pt).saves then [(c.point pt).block] else []
      else []
  | .trap | .relocInsn | .relocBlk => if (c.blockOf pt).saves then [(c.point pt).block] else []

/-- A block that an attempt saves (and is not empty) is saved for the first time, once,
and still has its original bytes. -/
def FirstSave (m₀ : Memory) (s : Saving) (e : Attempt) : Prop :=
  ∀ b ∈ saves c s.world e.pt e.method, 0 < (c.obj.block b).size →
    (saves c s.world e.pt e.method).count b = 1 ∧ (s.saved b).origCallInsn = none ∧
      bytesAt s.world.mem (c.obj.block b).start (c.obj.block b).size =
        bytesAt m₀ (c.obj.block b).start (c.obj.block b).size

def copies (log : List (Nat × Memory)) (b : Nat) : List (Nat × Memory) := log.filter fun e => e.1 = b

/-- What blocks have saved is what a log of copies says. -/
structure Logged (saved : Nat → SavedBlock) (log : List (Nat × Memory)) : Prop where
  code : ∀ b, (saved b).origCode =
    ((copies log b).map fun e => bytesAt e.2 (c.obj.block b).start (c.obj.block b).size).flatten
  insn : ∀ b, (saved b).origCallInsn = if copies log b = [] then none else some (c.obj.block b).code.origCallInsn
  decoded : ∀ b, (c.obj.block b).saves = false → copies log b = []

/-- At most one copy is made of a block (that is not empty), and of original code. -/
def CopiedOnce (m₀ : Memory) (log : List (Nat × Memory)) : Prop :=
  ∀ b, 0 < (c.obj.block b).size → (copies log b).length ≤ 1 ∧ ∀ e ∈ copies log b,
    bytesAt e.2 (c.obj.block b).start (c.obj.block b).size =
      bytesAt m₀ (c.obj.block b).start (c.obj.block b).size

end

section
variable {c : Config} {saved : Nat → SavedBlock} {log : List (Nat × Memory)} {m₀ : Memory}

theorem copies_append (first second : List (Nat × Memory)) (b : Nat) :
    copies (first ++ second) b = copies first b ++ copies second b :=
  List.filter_append ..

theorem copies_single (b q : Nat) (m : Memory) : copies [(b,m)] q = if b = q then [(b,m)] else [] := by
  simp only [copies,List.filter_cons,List.filter_nil,decide_eq_true_eq]

theorem Logged.saveBlock (logged : Logged c saved log) (m : Memory) (b : Nat) :
    (saveBlock c m saved b).1 = (c.obj.block b).saves ∧ Logged c (saveBlock c m saved b).2
      (log ++ if (c.obj.block b).saves then [(b,m)] else []) := by
  cases decodes : (c.obj.block b).saves with
  | false =>
    have none := logged.insn b
    rw [logged.decoded b decodes] at none
    have code : ∀ q, ((Workers.saveBlock c m saved b).2 q).origCode = (saved q).origCode := by
      intro q
      by_cases here : q = b <;> simp [Workers.saveBlock,Block.save,decodes,here]
    have insn : ∀ q, ((Workers.saveBlock c m saved b).2 q).origCallInsn = (saved q).origCallInsn := by
      intro q
      by_cases here : q = b <;> simp [Workers.saveBlock,Block.save,decodes,here,none]
    refine ⟨by simp [Workers.saveBlock,Block.save,decodes],fun q => ?_,fun q => ?_,fun q quiet => ?_⟩
    · rw [code,logged.code]
      simp
    · rw [insn,logged.insn]
      simp
    · simpa using logged.decoded q quiet
  | true =>
    refine ⟨by simp [Workers.saveBlock,Block.save,decodes],fun q => ?_,fun q => ?_,fun q quiet => ?_⟩
    · rw [if_pos rfl,copies_append,copies_single]
      by_cases here : b = q
      · subst here
        simp [Workers.saveBlock,Block.save,decodes,logged.code]
      · have other : q ≠ b := fun same => here same.symm
        simpa [Workers.saveBlock,here,other] using logged.code q
    · rw [if_pos rfl,copies_append,copies_single]
      by_cases here : b = q
      · subst here
        simp [Workers.saveBlock,Block.save,decodes]
      · have other : q ≠ b := fun same => here same.symm
        simpa [Workers.saveBlock,here,other] using logged.insn q
    · have other : b ≠ q := by
        rintro rfl
        rw [decodes] at quiet
        cases quiet
      rw [if_pos rfl,copies_append,copies_single,if_neg other,logged.decoded q quiet]
      rfl

/-- Saving for an attempt copies the blocks it should, and says so to the instrumenter
as `save` does. -/
theorem Logged.save {s : Saving} (logged : Logged c s.saved log) (pt : Nat) (k : InstallMethod) :
    ((s.save c pt k).1,(s.save c pt k).2.world) = Workers.save c s.world pt k ∧
      Logged c (s.save c pt k).2.saved (log ++ (saves c s.world pt k).map fun b => (b,s.world.mem)) := by
  cases k with
  | springboard =>
    have same := findSpringboard_mem (c := c) s.world pt
    cases found : findSpringboard c s.world pt with
    | mk spring w =>
      simp only [found] at same
      cases spring with
      | none =>
        simp only [Saving.save,Workers.save,saves,found]
        exact ⟨trivial,by simpa using logged⟩
      | some spring =>
        obtain ⟨ok,first⟩ := logged.saveBlock w.mem spring
        cases saving : Workers.saveBlock c w.mem s.saved spring with
        | mk good saved =>
          simp only [saving] at ok first
          subst ok
          simp only [Saving.save,Workers.save,saves,found,saving]
          cases decodes : (c.obj.block spring).saves with
          | false =>
            simp only [decodes] at first
            exact ⟨rfl,by simpa using first⟩
          | true =>
            simp only [decodes] at first
            obtain ⟨ok,second⟩ := first.saveBlock w.mem (c.point pt).block
            refine ⟨by simp [ok,Config.blockOf],?_⟩
            rw [same] at second
            cases called : (c.obj.block (c.point pt).block).saves with
            | false => simpa [Config.blockOf,called,same] using second
            | true => simpa [Config.blockOf,called,same] using second
  | trap | relocInsn | relocBlk =>
    obtain ⟨ok,first⟩ := logged.saveBlock s.world.mem (c.point pt).block
    refine ⟨by simp [Saving.save,Workers.save,ok,Config.blockOf],?_⟩
    cases called : (c.obj.block (c.point pt).block).saves with
    | false => simpa [Saving.save,saves,Config.blockOf,called] using first
    | true => simpa [Saving.save,saves,Config.blockOf,called] using first

theorem Logged.attempt {s : Saving} (logged : Logged c s.saved log) (e : Attempt) :
    Logged c (s.attempt c e).saved (log ++ (saves c s.world e.pt e.method).map fun b => (b,s.world.mem)) := by
  have after := (logged.save e.pt e.method).2
  simp only [Saving.attempt]
  cases saving : s.save c e.pt e.method with
  | mk ok s' =>
    rw [saving] at after
    cases ok <;> exact after

theorem savedOriginal_iff {s : Saving} (logged : Logged c s.saved log) :
    SavedOriginal c m₀ s ↔ CopiedOnce c m₀ log := by
  have each : ∀ b, (s.saved b).origCallInsn.isSome = true ↔ copies log b ≠ [] := by
    intro b
    rw [logged.insn]
    split <;> simp_all
  constructor
  · intro original b nonempty
    by_cases none : copies log b = []
    · simp [none]
    · have code := (original b ((each b).mpr none)).1
      rw [logged.code] at code
      have lengths := congrArg List.length code
      simp only [List.length_flatten,List.map_map,length_bytesAt,Function.comp_def,List.map_const',
        List.sum_replicate,smul_eq_mul] at lengths
      have one : (copies log b).length = 1 := Nat.eq_of_mul_eq_mul_right nonempty (by rw [lengths,Nat.one_mul])
      obtain ⟨e,single⟩ := List.length_eq_one_iff.mp one
      rw [single] at code
      refine ⟨by omega,fun e' member => ?_⟩
      rw [single] at member
      obtain rfl := List.mem_singleton.mp member
      simpa using code
  · intro once b some
    have copied := (each b).mp some
    refine ⟨?_,by rw [logged.insn,if_neg copied]⟩
    rw [logged.code]
    by_cases nonempty : 0 < (c.obj.block b).size
    · obtain ⟨few,same⟩ := once b nonempty
      have one : (copies log b).length = 1 := by
        have positive := List.length_pos_of_ne_nil copied
        omega
      obtain ⟨e,single⟩ := List.length_eq_one_iff.mp one
      rw [single] at same ⊢
      simpa using same e (List.mem_singleton.mpr rfl)
    · have empty : (c.obj.block b).size = 0 := by omega
      simp [empty,bytesAt]

theorem length_copies_map (new : List Nat) (m : Memory) (b : Nat) :
    (copies (new.map fun d => (d,m)) b).length = new.count b := by
  simp only [copies,List.filter_map,List.length_map,List.count_eq_length_filter]
  exact congrArg List.length (List.filter_congr fun d _ => by simp [Bool.beq_eq_decide_eq])

theorem copiedOnce_append (new : List Nat) (m : Memory) :
    CopiedOnce c m₀ (log ++ new.map fun b => (b,m)) ↔ CopiedOnce c m₀ log ∧
      ∀ b ∈ new, 0 < (c.obj.block b).size → new.count b = 1 ∧ copies log b = [] ∧
        bytesAt m (c.obj.block b).start (c.obj.block b).size =
          bytesAt m₀ (c.obj.block b).start (c.obj.block b).size := by
  have memory : ∀ b, ∀ e ∈ copies (new.map fun d => (d,m)) b, e.2 = m := by
    intro b e member
    obtain ⟨d,_,rfl⟩ := List.mem_map.mp (List.mem_of_mem_filter member)
    rfl
  constructor
  · intro once
    refine ⟨fun b nonempty => ?_,fun b member nonempty => ?_⟩
    · obtain ⟨few,same⟩ := once b nonempty
      rw [copies_append] at few same
      rw [List.length_append] at few
      exact ⟨by omega,fun e old => same e (List.mem_append_left _ old)⟩
    · obtain ⟨few,same⟩ := once b nonempty
      rw [copies_append] at few same
      rw [List.length_append,length_copies_map] at few
      have counted := List.count_pos_iff.mpr member
      have none : copies log b = [] := List.length_eq_zero_iff.mp (by omega)
      have mine : (b,m) ∈ copies (new.map fun d => (d,m)) b := by
        simpa [copies] using member
      exact ⟨by omega,none,same (b,m) (List.mem_append_right _ mine)⟩
  · rintro ⟨once,first⟩ b nonempty
    obtain ⟨few,same⟩ := once b nonempty
    rw [copies_append,List.length_append,length_copies_map]
    by_cases member : b ∈ new
    · obtain ⟨one,none,code⟩ := first b member nonempty
      rw [none]
      refine ⟨by simp [one],fun e copied => ?_⟩
      rw [memory b e copied]
      exact code
    · have nothing : copies (new.map fun d => (d,m)) b = [] :=
        List.length_eq_zero_iff.mp (by rw [length_copies_map]; exact List.count_eq_zero.mpr member)
      rw [nothing,List.append_nil,List.count_eq_zero.mpr member]
      exact ⟨few,same⟩

theorem firstSave_iff {s : Saving} (logged : Logged c s.saved log) (e : Attempt) :
    FirstSave c m₀ s e ↔ ∀ b ∈ saves c s.world e.pt e.method, 0 < (c.obj.block b).size →
      (saves c s.world e.pt e.method).count b = 1 ∧ copies log b = [] ∧
        bytesAt s.world.mem (c.obj.block b).start (c.obj.block b).size =
          bytesAt m₀ (c.obj.block b).start (c.obj.block b).size := by
  have none : ∀ b, (s.saved b).origCallInsn = none ↔ copies log b = [] := by
    intro b
    rw [logged.insn]
    split <;> simp_all
  simp only [FirstSave,none]

theorem savedOriginal_run {s : Saving} (logged : Logged c s.saved log) (attempts : List Attempt) :
    SavedOriginal c m₀ (run (Saving.attempt c) s attempts) ↔
      SavedOriginal c m₀ s ∧ Library.Meets (Saving.attempt c) (FirstSave c m₀) s attempts := by
  induction attempts generalizing s log with
  | nil => simp [Library.Meets]
  | cons e rest ih =>
    have after := logged.attempt e
    rw [run_cons,ih after,savedOriginal_iff after,savedOriginal_iff logged,copiedOnce_append,Library.Meets,
      firstSave_iff logged,and_assoc]

/-- What blocks have saved after any attempts is their original code, exactly if every
attempt saved only blocks not saved before and not patched yet. -/
theorem saved_original_iff (c : Config) (w : World) (attempts : List Attempt) :
    SavedOriginal c w.mem (run (Saving.attempt c) (.start w) attempts) ↔
      Library.Meets (Saving.attempt c) (FirstSave c w.mem) (.start w) attempts := by
  have empty : Logged c (Saving.start w).saved [] := ⟨fun _ => rfl,fun _ => rfl,fun _ _ => rfl⟩
  have start : SavedOriginal c w.mem (.start w) := fun b saved => by cases saved
  rw [savedOriginal_run empty]
  exact and_iff_right start

end

/-- Two workers are tried on one point; the block's code is saved twice. -/
theorem nearCall_saved_twice : ¬SavedOriginal nearCall nearWorld.mem (run (Saving.attempt nearCall) (.start nearWorld)
    [⟨0,.relocInsn,nearAnswers false⟩,⟨0,.trap,nearAnswers true⟩]) := by
  intro original
  have code := (original 0 (by decide +kernel)).1
  have lengths := congrArg List.length code
  exact absurd lengths (by decide +kernel)

end SelfPropelled.Workers
