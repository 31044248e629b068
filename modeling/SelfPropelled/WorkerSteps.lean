import SelfPropelled.Transfer
import SelfPropelled.Workers

/-! What the steps of a worker do: the blob it works with, the code built into it,
the permissions it asks for, the spring block it finds. -/

namespace SelfPropelled.Workers
open Machine
open Allocator (pageSize)

def InstallMethod.reloc : InstallMethod → Bool
  | .relocInsn | .trap => false
  | .relocBlk | .springboard => true

theorem permits_of_page {a : Word} (above : belowPage a = false) (granted : Bool) :
    permits a granted = granted := by
  have signed : ¬a.toInt < 4096 := of_decide_eq_false above
  have large : 4096 ≤ a.toNat := by
    rw [BitVec.toInt_eq_toNat_cond] at signed
    split at signed <;> omega
  have tested : pageSize < a.toNat ∨ a.toNat % pageSize = 0 := by
    simp only [pageSize]
    omega
  simpa [permits] using fun _ => tested

def Executable (rwx : List (Word × Nat)) (a : Word) (n : Nat) : Prop :=
  ∃ r ∈ rwx, ∀ x, In a n x → In r.1 r.2 x

theorem Executable.mono {rwx rwx' : List (Word × Nat)} {a : Word} {n : Nat} (exec : Executable rwx a n)
    (more : ∀ r ∈ rwx, r ∈ rwx') : Executable rwx' a n := by
  obtain ⟨r,member,inside⟩ := exec
  exact ⟨r,more r member,inside⟩

theorem executable_cons_apart {rwx : List (Word × Nat)} {a b : Word} {n k : Nat} (some : 0 < n)
    (small : n ≤ 2 ^ 64) (apart : Apart a n b k) :
    Executable ((b,k) :: rwx) a n ↔ Executable rwx a n := by
  refine ⟨fun exec => ?_,fun exec => exec.mono fun r member => List.mem_cons_of_mem _ member⟩
  obtain ⟨r,member,inside⟩ := exec
  rcases List.mem_cons.mp member with rfl | old
  · have first : In a n (a + BitVec.ofNat 64 0) := in_base some small
    exact absurd (inside _ first) (apart _ first)
  · exact ⟨r,old,inside⟩

theorem executable_cons_self {rwx : List (Word × Nat)} {a : Word} {n k : Nat} (small : n ≤ 2 ^ 64) :
    Executable ((a,k) :: rwx) a n ↔ n ≤ k ∨ Executable rwx a n := by
  refine ⟨fun exec => ?_,fun either => ?_⟩
  · obtain ⟨r,member,inside⟩ := exec
    rcases List.mem_cons.mp member with rfl | old
    · refine .inl (Nat.le_of_not_lt fun short => ?_)
      have beyond : In a k (a + BitVec.ofNat 64 k) := inside _ (in_base short small)
      simp only [In] at beyond
      bv_omega
    · exact .inr ⟨r,old,inside⟩
  · rcases either with fits | exec
    · exact ⟨(a,k),List.mem_cons_self,fun x inside => inside.widen fits⟩
    · exact exec.mono fun r member => List.mem_cons_of_mem _ member

theorem signExtend_disp8 (d : Word) (fits : isDisp8 d = true) : (d.setWidth 8).signExtend 64 = d := by
  simp only [isDisp8,Bool.and_eq_true,decide_eq_true_eq] at fits
  apply BitVec.eq_of_toInt_eq
  rw [BitVec.toInt_signExtend_of_le (by decide),BitVec.toInt_setWidth]
  rw [BitVec.toInt_eq_toNat_cond] at *
  have bound := d.isLt
  rw [Int.bmod]
  split at fits
  · split <;> omega
  · split <;> omega

section
variable (c : Config)

def HasCode (x : Word) : Prop := ∃ b, In (c.obj.block b).start (c.obj.block b).size x

/-- Blocks as Dyninst promises them: no two share a byte, the last instruction ends
the block, and one that is instrumented as a call has at least two bytes. -/
structure Layout : Prop where
  apart : ∀ i j, i ≠ j → Apart (c.obj.block i).start (c.obj.block i).size
    (c.obj.block j).start (c.obj.block j).size
  last : ∀ b, ((c.obj.block b).last - (c.obj.block b).start).toNat + (c.obj.block b).callSize =
    (c.obj.block b).size
  call : ∀ pt, 2 ≤ (c.blockOf pt).callSize

/-- What `BuildBlob` makes of a world that has a blob. -/
def Built (w : World) (pt : Nat) (reloc : Bool) (w' : World) : Prop :=
  0 < (w.snippet pt).blobSize ∧ w' = w ∨
  (w.snippet pt).blobSize = 0 ∧ ∃ code,
    (c.snippet pt).generate c.lib reloc (w.snippet pt).blob = some code ∧
      w' = (w.write (w.snippet pt).blob code).setSnippet pt {w.snippet pt with blobSize := code.length}

/-- No assertion of the generator fails, as far as it runs. -/
def Generates (w : World) (pt : Nat) (reloc : Bool) (blob : Word) : Prop :=
  0 < (w.snippet pt).blobSize ∨ ((c.snippet pt).generate c.lib reloc blob).isSome = true

end

variable {c : Config}

theorem Layout.size_ge (layout : Layout c) (b : Nat) : (c.obj.block b).callSize ≤ (c.obj.block b).size := by
  have split := layout.last b
  omega

theorem Layout.in_last (layout : Layout c) (b : Nat) {n : Nat} {x : Word}
    (fits : n ≤ (c.obj.block b).callSize) (inside : In (c.obj.block b).last n x) :
    In (c.obj.block b).start (c.obj.block b).size x := by
  have split := layout.last b
  have bound : (c.obj.block b).size < 2 ^ 64 := BitVec.isLt _
  simp only [In] at *
  bv_omega

theorem Layout.hasCode_start (layout : Layout c) (pt : Nat) : HasCode c (c.blockOf pt).start := by
  have room := layout.size_ge (c.point pt).block
  have call := layout.call pt
  refine ⟨(c.point pt).block,?_⟩
  simp only [In,Config.blockOf,BitVec.sub_self]
  exact Nat.lt_of_lt_of_le (by decide) (Nat.le_trans call room)

/-- Bytes apart from the application's code do not go round the address space. -/
theorem Layout.small (layout : Layout c) (pt : Nat) {p : Word} {n : Nat}
    (apart : ∀ x, In p n x → ¬HasCode c x) : n ≤ 2 ^ 64 :=
  Nat.le_of_not_lt fun large =>
    apart (c.blockOf pt).start (Nat.lt_trans (BitVec.isLt _) large) (layout.hasCode_start pt)

theorem Layout.hasCode_last (layout : Layout c) (pt : Nat) : HasCode c (c.blockOf pt).last := by
  have call := layout.call pt
  refine ⟨(c.point pt).block,layout.in_last _ (n := 1) (Nat.le_trans (by decide) call) ?_⟩
  simp [In,Config.blockOf]

@[simp] theorem setSnippet_self (w : World) (pt : Nat) (s : SnippetState) :
    (w.setSnippet pt s).snippet pt = s := by
  simp [World.setSnippet]

@[simp] theorem setSnippet_mem (w : World) (pt : Nat) (s : SnippetState) : (w.setSnippet pt s).mem = w.mem := rfl

@[simp] theorem getBlob_snippet (w : World) (pt est : Nat) (malloc : Nat → Word) :
    (getBlob w pt est malloc).snippet pt = {w.snippet pt with blob := malloc est} := by
  simp [getBlob]

@[simp] theorem getBlob_mem (w : World) (pt est : Nat) (malloc : Nat → Word) :
    (getBlob w pt est malloc).mem = w.mem := rfl

@[simp] theorem getBlob_rwx (w : World) (pt est : Nat) (malloc : Nat → Word) :
    (getBlob w pt est malloc).rwx = w.rwx := rfl

@[simp] theorem getBlob_freed (w : World) (pt est : Nat) (malloc : Nat → Word) :
    (getBlob w pt est malloc).freed (malloc est) = false := by
  simp [getBlob]

@[simp] theorem ensureBlob_of_blob {w : World} {pt : Nat} (est : Nat) (malloc : Nat → Word)
    (there : (w.snippet pt).blob ≠ 0) : ensureBlob w pt est malloc = w :=
  if_neg there

theorem ensureBlob_blob (w : World) (pt est : Nat) (malloc : Nat → Word) :
    ((ensureBlob w pt est malloc).snippet pt).blob =
      if (w.snippet pt).blob = 0 then malloc est else (w.snippet pt).blob := by
  unfold ensureBlob
  split
  · rw [getBlob_snippet]
  · rfl

@[simp] theorem ensureBlob_blobSize (w : World) (pt est : Nat) (malloc : Nat → Word) :
    ((ensureBlob w pt est malloc).snippet pt).blobSize = (w.snippet pt).blobSize := by
  unfold ensureBlob
  split
  · rw [getBlob_snippet]
  · rfl

@[simp] theorem ensureBlob_springBlk (w : World) (pt est : Nat) (malloc : Nat → Word) :
    ((ensureBlob w pt est malloc).snippet pt).springBlk = (w.snippet pt).springBlk := by
  unfold ensureBlob
  split
  · rw [getBlob_snippet]
  · rfl

theorem ensureBlob_freed (w : World) (pt est : Nat) (malloc : Nat → Word) :
    (ensureBlob w pt est malloc).freed ((ensureBlob w pt est malloc).snippet pt).blob = false ↔
      (w.snippet pt).blob = 0 ∨ w.freed ((ensureBlob w pt est malloc).snippet pt).blob = false := by
  unfold ensureBlob
  split
  next null => exact iff_of_true (by rw [getBlob_snippet]; exact getBlob_freed _ _ _ _) (.inl null)
  next there => exact ⟨.inr,fun live => live.resolve_left there⟩

@[simp] theorem ensureBlob_mem (w : World) (pt est : Nat) (malloc : Nat → Word) :
    (ensureBlob w pt est malloc).mem = w.mem := by
  unfold ensureBlob
  split <;> rfl

@[simp] theorem ensureBlob_rwx (w : World) (pt est : Nat) (malloc : Nat → Word) :
    (ensureBlob w pt est malloc).rwx = w.rwx := by
  unfold ensureBlob
  split <;> rfl

@[simp] theorem ensureBlob_instMap (w : World) (pt est : Nat) (malloc : Nat → Word) :
    (ensureBlob w pt est malloc).instMap = w.instMap := by
  unfold ensureBlob
  split <;> rfl

theorem buildBlob_null {w : World} {pt est : Nat} (reloc : Bool) {malloc : Nat → Word}
    (null : ((ensureBlob w pt est malloc).snippet pt).blob = 0) :
    buildBlob c w pt est reloc malloc = some (0,ensureBlob w pt est malloc) := by
  simp only [buildBlob,if_pos null]

theorem buildBlob_stops {w : World} {pt est : Nat} {reloc : Bool} {malloc : Nat → Word}
    (there : ((ensureBlob w pt est malloc).snippet pt).blob ≠ 0)
    (fails : ¬Generates c (ensureBlob w pt est malloc) pt reloc
      ((ensureBlob w pt est malloc).snippet pt).blob) :
    buildBlob c w pt est reloc malloc = none := by
  simp only [Generates,not_or,Option.isSome_iff_ne_none,ne_eq,not_not] at fails
  simp only [buildBlob,if_neg there,if_neg fails.1,fails.2]

theorem buildBlob_built (w : World) (pt est : Nat) (reloc : Bool) (malloc : Nat → Word)
    (there : ((ensureBlob w pt est malloc).snippet pt).blob ≠ 0)
    (generates : Generates c (ensureBlob w pt est malloc) pt reloc
      ((ensureBlob w pt est malloc).snippet pt).blob) :
    ∃ w', buildBlob c w pt est reloc malloc =
        some (((ensureBlob w pt est malloc).snippet pt).blob,w') ∧
      Built c (ensureBlob w pt est malloc) pt reloc w' := by
  by_cases old : 0 < ((ensureBlob w pt est malloc).snippet pt).blobSize
  · exact ⟨_,by simp only [buildBlob,if_neg there,if_pos old],.inl ⟨old,rfl⟩⟩
  · obtain ⟨code,generated⟩ := Option.isSome_iff_exists.mp (generates.resolve_left old)
    exact ⟨_,by simp only [buildBlob,if_neg there,if_neg old,generated],
      .inr ⟨by omega,code,generated,rfl⟩⟩

section
variable {w w' : World} {pt : Nat} {reloc : Bool} (built : Built c w pt reloc w')
include built

theorem Built.blob : (w'.snippet pt).blob = (w.snippet pt).blob := by
  rcases built with ⟨_,rfl⟩ | ⟨_,code,_,rfl⟩
  · rfl
  · simp

theorem Built.rwx : w'.rwx = w.rwx := by
  rcases built with ⟨_,rfl⟩ | ⟨_,code,_,rfl⟩ <;> rfl

theorem Built.freed : w'.freed = w.freed := by
  rcases built with ⟨_,rfl⟩ | ⟨_,code,_,rfl⟩ <;> rfl

theorem Built.outside {x : Word} (outside : ∀ code,
    (c.snippet pt).generate c.lib reloc (w.snippet pt).blob = some code →
      ¬In (w.snippet pt).blob code.length x) : w'.mem x = w.mem x := by
  rcases built with ⟨_,rfl⟩ | ⟨_,code,generated,rfl⟩
  · rfl
  · exact storeBytes_outside _ _ _ _ (outside code generated)

/-- The bytes of the blob are those generated for it if they were generated now, or
were there before. -/
theorem Built.complete_iff (mem : Memory) {code : List Byte}
    (generated : (c.snippet pt).generate c.lib reloc (w.snippet pt).blob = some code)
    (small : code.length ≤ 2 ^ 64)
    (kept : ∀ x, In (w.snippet pt).blob code.length x → mem x = w'.mem x) :
    bytesAt mem (w.snippet pt).blob code.length = code ↔
      (w.snippet pt).blobSize = 0 ∨ bytesAt w.mem (w.snippet pt).blob code.length = code := by
  rw [bytesAt_congr small kept]
  rcases built with ⟨old,rfl⟩ | ⟨none,code',generated',rfl⟩
  · exact ⟨.inr,fun held => held.resolve_left (by omega)⟩
  · obtain rfl : code' = code := Option.some.inj (generated'.symm.trans generated)
    exact ⟨fun _ => .inl none,fun _ => bytesAt_storeBytes _ _ _ small⟩

theorem Built.fits_iff (code : List Byte)
    (generated : (c.snippet pt).generate c.lib reloc (w.snippet pt).blob = some code) :
    code.length ≤ (w'.snippet pt).blobSize ↔
      (w.snippet pt).blobSize = 0 ∨ code.length ≤ (w.snippet pt).blobSize := by
  rcases built with ⟨old,rfl⟩ | ⟨none,code',generated',rfl⟩
  · exact ⟨.inr,fun fits => fits.resolve_left (by omega)⟩
  · obtain rfl : code' = code := Option.some.inj (generated'.symm.trans generated)
    simp [none]

theorem Built.springBlk : (w'.snippet pt).springBlk = (w.snippet pt).springBlk := by
  rcases built with ⟨_,rfl⟩ | ⟨_,code,_,rfl⟩
  · rfl
  · simp

theorem Built.instrumented : w'.instrumented = w.instrumented := by
  rcases built with ⟨_,rfl⟩ | ⟨_,code,_,rfl⟩ <;> rfl

theorem Built.instMap : w'.instMap = w.instMap := by
  rcases built with ⟨_,rfl⟩ | ⟨_,code,_,rfl⟩ <;> rfl

end

theorem generate_eq_some {lib : ArchX86} {snip : Snippet} {reloc : Bool} {p : Word} {code : List Byte}
    (generated : snip.generate lib reloc p = some code) :
    ∃ moved patch, (if reloc then relocBlock lib snip.block.insns snip.block.last p else some []) =
        some moved ∧
      snip.emitPatch lib (p + BitVec.ofNat 64 moved.length) = some patch ∧ code = moved ++ patch := by
  cases reloc with
  | false =>
    obtain ⟨patch,made,rfl⟩ : ∃ patch, snip.emitPatch lib (p + 0#64) = some patch ∧ [] ++ patch = code := by
      simpa [Snippet.generate] using generated
    exact ⟨[],patch,rfl,made,rfl⟩
  | true =>
    obtain ⟨moved,copied,patch,made,rfl⟩ : ∃ moved,
        relocBlock lib snip.block.insns snip.block.last p = some moved ∧
        ∃ patch, snip.emitPatch lib (p + BitVec.ofNat 64 moved.length) = some patch ∧
          moved ++ patch = code := by
      simpa [Snippet.generate,Option.bind_eq_some_iff] using generated
    exact ⟨moved,patch,copied,made,rfl⟩

theorem generate_pos {lib : ArchX86} {snip : Snippet} {reloc : Bool} {p : Word} {code : List Byte}
    (generated : snip.generate lib reloc p = some code) : 0 < code.length := by
  obtain ⟨moved,patch,_,made,rfl⟩ := generate_eq_some generated
  simp only [Snippet.emitPatch,Option.bind_eq_bind,Option.pure_def,Option.bind_eq_some_iff,
    Option.some.injEq] at made
  obtain ⟨orig,_,rfl⟩ := made
  simp only [Snippet.aroundWrapper,Snippet.callWrapper,emitSave,List.length_append,List.length_cons]
  omega

/-- A spring block is as near and as large as the worker needs it. -/
def SpringOk (c : Config) (callStart : Word) (s : Nat) : Prop :=
  isDisp8 ((c.obj.block s).start + BitVec.ofNat 64 jumpAbsSize - (callStart + 2)) = true ∧
    jumpAbsSize * 2 ≤ ((c.obj.block s).last - (c.obj.block s).start).toNat

theorem suitable_iff {isSpring : Nat → Bool} {callStart : Word} {b : Nat} :
    suitable c isSpring callStart b = true ↔ SpringOk c callStart b ∧
      (c.obj.block b).containsCall = false ∧ isSpring b = false := by
  have rel : (if c.obj.loadAddr ≠ 0 then (c.obj.block b).start - c.obj.loadAddr +
        BitVec.ofNat 64 jumpAbsSize - (callStart + 2) + c.obj.loadAddr
      else (c.obj.block b).start - c.obj.loadAddr + BitVec.ofNat 64 jumpAbsSize - (callStart + 2)) =
      (c.obj.block b).start + BitVec.ofNat 64 jumpAbsSize - (callStart + 2) := by
    split
    · ring
    · rename_i absolute
      rw [not_not.mp absolute]
      ring
  simp only [suitable,rel,SpringOk,Bool.and_eq_true,decide_eq_true_eq,Bool.not_eq_true',and_assoc]

theorem scan_suitable {isSpring : Nat → Bool} {callStart upper : Word} {cr : Word × Word} {fuel : Nat}
    {spanAddr : Word} {b : Nat} (found : scan c isSpring callStart cr upper fuel spanAddr = some b) :
    suitable c isSpring callStart b = true := by
  induction fuel generalizing spanAddr with
  | zero => cases found
  | succ fuel ih =>
    cases blks : (c.obj.findBlocks cr spanAddr).getLast? with
    | none =>
      simp only [scan,blks,Option.ite_none_right_eq_some] at found
      exact ih found.2
    | some q =>
      simp only [scan,blks] at found
      by_cases fits : suitable c isSpring callStart q = true
      · rw [if_pos fits] at found
        cases found
        exact fits
      · rw [if_neg fits,Option.ite_none_right_eq_some] at found
        exact ih found.2

theorem findSpringboard_cases (w : World) (pt : Nat) :
    (∃ s, (w.snippet pt).springBlk = some s ∧ findSpringboard c w pt = (some s,w)) ∨
    (w.snippet pt).springBlk = none ∧ (findSpringboard c w pt = (none,w) ∨
      ∃ s, suitable c w.isSpring (c.blockOf pt).start s = true ∧
        findSpringboard c w pt = (some s,{w.setSnippet pt {w.snippet pt with springBlk := some s} with
          isSpring := fun q => q == s || w.isSpring q})) := by
  unfold findSpringboard
  split
  next s cached => exact .inl ⟨s,cached,rfl⟩
  next none =>
    refine .inr ⟨none,?_⟩
    dsimp only
    split
    · exact .inl rfl
    next s chosen =>
      obtain ⟨cr,_,found⟩ := List.exists_of_findSome?_eq_some chosen
      exact .inr ⟨s,scan_suitable found,rfl⟩

theorem springCode_pos {s : Nat} {p : Word} {code : List Byte} (made : springCode c s p = some code) :
    0 < code.length := by
  simp only [springCode,Option.bind_eq_bind,Option.pure_def,Option.bind_eq_some_iff,
    Option.some.injEq] at made
  obtain ⟨moved,_,rfl⟩ := made
  simp only [List.length_append,emitJumpAbs]
  split <;> simp

end SelfPropelled.Workers
