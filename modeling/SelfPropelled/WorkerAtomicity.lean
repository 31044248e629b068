import SelfPropelled.WorkerRuns

/-! When a worker's run is atomic: either the code leads to a complete, executable
blob, or it is as it was. -/

namespace SelfPropelled.Workers
open Machine

section
variable {c : Config} {w : World} {pt : Nat} {a : Answers}

theorem Stops.atomic {k : InstallMethod} {run : Result × World} (stops : Stops c pt w run) :
    Atomic c w pt k run := by
  obtain ⟨result,w'⟩ := run
  cases result with
  | returns ok =>
    cases ok with
    | true => exact absurd rfl stops.1
    | false => exact (stops.2 rfl).untouched
  | exits | aborts | faults => trivial

theorem Placed.small {k : InstallMethod} (placed : Placed c w pt k a) (layout : Layout c) {reloc : Bool}
    {code : List Byte}
    (generated : (c.snippet pt).generate c.lib reloc (blobBuffer c w pt a k) = some code) :
    code.length ≤ 2 ^ 64 :=
  layout.small pt (placed.blob reloc code generated)

theorem Placed.smallSpring {k : InstallMethod} (placed : Placed c w pt k a) (layout : Layout c)
    (mode : k = .springboard) {s : Nat} {moved : List Byte}
    (made : springCode c s (springBuffer c a s) = some moved) : moved.length ≤ 2 ^ 64 :=
  layout.small pt fun x inside => (placed.spring mode s moved made x inside).1

/-- A run that has patched the code and come to the world `f`: its blob was built in the
world `w₁`, which came to `w'`, and the patch has left the blob alone. -/
structure Holds (c : Config) (w : World) (pt : Nat) (a : Answers) (k : InstallMethod) (w₁ w' f : World) :
    Prop where
  built : Built c w₁ pt k.reloc w'
  mem : w₁.mem = w.mem
  size : (w₁.snippet pt).blobSize = (w.snippet pt).blobSize
  blob : (w₁.snippet pt).blob = blobBuffer c w pt a k
  final : (f.snippet pt).blob = blobBuffer c w pt a k
  kept : ∀ code, (c.snippet pt).generate c.lib k.reloc (blobBuffer c w pt a k) = some code →
    ∀ x, In (blobBuffer c w pt a k) code.length x → f.mem x = w'.mem x

theorem Holds.complete {k : InstallMethod} {w₁ w' f : World} (holds : Holds c w pt a k w₁ w' f)
    (layout : Layout c) (placed : Placed c w pt k a) {code : List Byte}
    (generated : (c.snippet pt).generate c.lib k.reloc (blobBuffer c w pt a k) = some code) :
    bytesAt f.mem (blobBuffer c w pt a k) code.length = code ↔
      (w.snippet pt).blobSize = 0 ∨ bytesAt w.mem (blobBuffer c w pt a k) code.length = code := by
  have same := holds.built.complete_iff f.mem (by rwa [holds.blob]) (placed.small layout generated)
    (by rw [holds.blob]; exact holds.kept code generated)
  rwa [holds.blob,holds.size,holds.mem] at same

theorem led_iff_usable {k : InstallMethod} {w₁ w' f : World} (leads : Prop) (layout : Layout c)
    (placed : Placed c w pt k a) (holds : Holds c w pt a k w₁ w' f)
    (exec : ∀ code, (c.snippet pt).generate c.lib k.reloc (blobBuffer c w pt a k) = some code →
      (Executable f.rwx (blobBuffer c w pt a k) code.length ↔
        k ≠ .trap ∧ ((w.snippet pt).blobSize = 0 ∨ code.length ≤ (w.snippet pt).blobSize) ∨
          Executable w.rwx (blobBuffer c w pt a k) code.length))
    (freed : ∀ code, (c.snippet pt).generate c.lib k.reloc (blobBuffer c w pt a k) = some code →
      (f.freed (blobBuffer c w pt a k) = false ↔ k = .relocInsn ∨ k = .relocBlk ∨
        (w.snippet pt).blob = 0 ∨ w.freed (blobBuffer c w pt a k) = false))
    (site : PatchLeads c f pt (blobBuffer c w pt a k) k ↔ leads) :
    Led c f pt k ↔ leads ∧ Usable c w pt a k := by
  unfold Led Usable
  rw [holds.final,site]
  constructor
  · rintro ⟨⟨code,generated,bytes,runs⟩,live,reached⟩
    exact ⟨reached,⟨code,generated,(holds.complete layout placed generated).mp bytes,
      (exec code generated).mp runs⟩,(freed code generated).mp live⟩
  · rintro ⟨reached,⟨code,generated,bytes,runs⟩,live⟩
    exact ⟨⟨code,generated,(holds.complete layout placed generated).mpr bytes,
      (exec code generated).mpr runs⟩,(freed code generated).mpr live,reached⟩

theorem shortJump_written {m : Memory} {p target : Word} (d : BitVec 32) :
    ShortJump (storeBytes m p (0xe9 :: toBytes 4 d)) p target ↔ p + 5 + d.signExtend 64 = target := by
  have bytes : bytesAt (storeBytes m p (0xe9 :: toBytes 4 d)) p 5 = 0xe9 :: toBytes 4 d := by
    have written := bytesAt_storeBytes m p (0xe9 :: toBytes 4 d) (by simp)
    simpa using written
  rw [bytesAt,List.cons.injEq] at bytes
  have disp : load 32 (storeBytes m p (0xe9 :: toBytes 4 d)) (p + 1) = d := by
    rw [load,bytes.2,ofBytes_toBytes _ _ (by decide)]
  simp only [ShortJump,bytes.1,disp,true_and]

theorem longJump_written {m : Memory} {p target : Word} :
    LongJump (storeBytes m p (emitPushImm64 target ++ [0xc3])) p target := by
  have written := bytesAt_storeBytes m p (emitPushImm64 target ++ [0xc3]) (by simp [length_emitPushImm64])
  simpa [LongJump,length_emitPushImm64,jumpAbsSize] using written

theorem hop_written {m : Memory} {p target : Word} (d : Byte) :
    Hop (storeBytes m p [0xeb,d]) p target ↔ p + 2 + d.signExtend 64 = target := by
  have bytes := bytesAt_storeBytes m p [0xeb,d] (by simp)
  have parts : storeBytes m p [0xeb,d] p = 0xeb ∧ storeBytes m p [0xeb,d] (p + 1) = d := by
    simpa [bytesAt] using bytes
  simp only [Hop,parts.1,parts.2,true_and]

theorem length_callInsnJump (b : Block) (blob : Word) : (callInsnJump b blob).length = 5 := by
  simp [callInsnJump]

theorem holds_callInsn {w' f : World} (layout : Layout c) (placed : Placed c w pt .relocInsn a)
    (large : 5 ≤ (c.blockOf pt).callSize)
    (built : Built c (getBlob w pt baseEstimateRelocInsnSize a.blob) pt false w')
    (snippet : f.snippet = w'.snippet)
    (mem : f.mem = storeBytes w'.mem (c.blockOf pt).last
      (callInsnJump (c.blockOf pt) (a.blob baseEstimateRelocInsnSize))) :
    Holds c w pt a .relocInsn (getBlob w pt baseEstimateRelocInsnSize a.blob) w' f := by
  have blob : ((getBlob w pt baseEstimateRelocInsnSize a.blob).snippet pt).blob =
      blobBuffer c w pt a .relocInsn := by simp [blobBuffer]
  refine ⟨built,rfl,by simp,blob,?_,fun code generated x inside => ?_⟩
  · rw [snippet]
    exact built.blob.trans blob
  · rw [mem]
    refine storeBytes_outside _ _ _ _ fun site => placed.blob false code generated x inside ?_
    rw [length_callInsnJump] at site
    exact ⟨_,layout.in_last _ large site⟩

theorem atomic_callInsn (layout : Layout c) (sound : Sound c w pt) (placed : Placed c w pt .relocInsn a) :
    Atomic c w pt .relocInsn (callInsnRun c w pt a) ↔
      (Reaches c w pt a .relocInsn → Completes c w pt a .relocInsn ∧ Usable c w pt a .relocInsn) := by
  rcases callInsn_cases placed with ⟨fails,stops⟩ | ⟨reaches,w',built,run⟩
  · exact ⟨fun _ reaches => absurd reaches fails,fun _ => stops.atomic⟩
  · have five := sound.calls reaches.2.2.2.1
    have opcode := reaches.2.2.2.1
    have inCode : ∀ x, In (c.blockOf pt).last 5 x → HasCode c x := fun x inside =>
      ⟨_,layout.in_last _ (Nat.le_of_eq five.symm) inside⟩
    have blob : ((getBlob w pt baseEstimateRelocInsnSize a.blob).snippet pt).blob =
        blobBuffer c w pt a .relocInsn := by simp [blobBuffer]
    rw [run]
    cases perm : a.blobPerm with
    | false =>
      simp only [Bool.false_eq_true,if_false,Atomic]
      refine ⟨fun untouched => ?_,fun safe => ?_⟩
      · have site : HasCode c (c.blockOf pt).last := inCode _ (by simp [In])
        have kept := untouched.code _ site
        simp only [World.free,World.write] at kept
        rw [storeBytes_inside _ _ _ _ (by simp [length_callInsnJump]),opcode] at kept
        simp [callInsnJump] at kept
      · have done := (safe reaches).1.1
        rw [perm] at done
        cases done
    | true =>
      simp only [if_true,Atomic]
      have apart : ∀ code, (c.snippet pt).generate c.lib false (a.blob baseEstimateRelocInsnSize) = some code →
          Apart (a.blob baseEstimateRelocInsnSize) code.length (c.blockOf pt).last 5 :=
        fun code generated x inside site => placed.blob false code generated x inside (inCode x site)
      refine (led_iff_usable (Completes c w pt a .relocInsn) layout placed
        (holds_callInsn layout placed reaches.2.2.1 built ?_ ?_) ?_ ?_ ?_).trans
          ⟨fun led _ => led,fun safe => safe reaches⟩
      · rfl
      · rfl
      · intro code generated
        have fits := built.fits_iff code (by rw [blob]; exact generated)
        have some := generate_pos generated
        have small := placed.small layout generated
        simp only [World.write,blobBuffer] at generated small ⊢
        rw [executable_cons_self small,five,executable_cons_apart some small (apart code generated),
          built.rwx,fits]
        simp
      · intro code _
        simp only [World.write,blobBuffer,built.freed]
        simp
      · simp only [PatchLeads,World.write,callInsnJump,five,shortJump_written,Completes,perm,true_and,
          blobBuffer]
        rw [← signExtend_setWidth_iff]
        change _ + 5#64 + _ = _ ↔ ((_ - _ - 5#64).setWidth 32).signExtend 64 = _ - _ - 5#64
        generalize ((a.blob baseEstimateRelocInsnSize - (c.blockOf pt).last - 5#64).setWidth 32).signExtend
          64 = d
        constructor
        · intro lands
          bv_omega
        · intro fits
          bv_omega

theorem length_callBlockJump {b : Block} {blob : Word}
    (room : isDisp32 (blob - b.start - 5) = true ∨ jumpAbsSize ≤ b.size) (large : 5 ≤ b.size) :
    (callBlockJump b blob).length ≤ b.size := by
  unfold callBlockJump
  split
  · simpa using large
  · rename_i far
    have wide := room.resolve_left far
    simpa [emitJumpAbs,length_emitPushImm64,jumpAbsSize] using wide

theorem holds_callBlock {w' f : World} (placed : Placed c w pt .relocBlk a)
    (fits : (callBlockJump (c.blockOf pt) (blobBuffer c w pt a .relocBlk)).length ≤ (c.blockOf pt).size)
    (built : Built c (getBlob w pt (baseEstimateRelocBlockSize (c.blockOf pt)) a.blob) pt true w')
    (snippet : f.snippet = w'.snippet)
    (mem : f.mem = w'.mem ∨ f.mem = storeBytes w'.mem (c.blockOf pt).start
      (callBlockJump (c.blockOf pt) (blobBuffer c w pt a .relocBlk))) :
    Holds c w pt a .relocBlk (getBlob w pt (baseEstimateRelocBlockSize (c.blockOf pt)) a.blob) w' f := by
  have blob : ((getBlob w pt (baseEstimateRelocBlockSize (c.blockOf pt)) a.blob).snippet pt).blob =
      blobBuffer c w pt a .relocBlk := by simp [blobBuffer]
  refine ⟨built,rfl,by simp,blob,?_,fun code generated x inside => ?_⟩
  · rw [snippet]
    exact built.blob.trans blob
  · rcases mem with same | written
    · rw [same]
    · rw [written]
      exact storeBytes_outside _ _ _ _ fun site =>
        placed.blob true code generated x inside ⟨_,site.widen fits⟩

theorem atomic_callBlock (layout : Layout c) (placed : Placed c w pt .relocBlk a) :
    Atomic c w pt .relocBlk (callBlockRun c w pt a) ↔
      (Reaches c w pt a .relocBlk → Completes c w pt a .relocBlk ∧ Usable c w pt a .relocBlk) := by
  rcases callBlock_cases placed with ⟨fails,stops⟩ | ⟨reaches,w',built,run⟩
  · exact ⟨fun _ reaches => absurd reaches fails,fun _ => stops.atomic⟩
  · have blob : ((getBlob w pt (baseEstimateRelocBlockSize (c.blockOf pt)) a.blob).snippet pt).blob =
        blobBuffer c w pt a .relocBlk := by simp [blobBuffer]
    have large := reaches.2.2.1
    have room := reaches.2.2.2.1
    have fits := length_callBlockJump room large
    have inCode : ∀ {n x}, n ≤ (c.blockOf pt).size → In (c.blockOf pt).start n x → HasCode c x :=
      fun fits inside => ⟨_,inside.widen fits⟩
    have exec : ∀ code, (c.snippet pt).generate c.lib true (blobBuffer c w pt a .relocBlk) = some code →
        (Executable ((blobBuffer c w pt a .relocBlk,(w'.snippet pt).blobSize) :: w'.rwx)
            (blobBuffer c w pt a .relocBlk) code.length ↔
          InstallMethod.relocBlk ≠ .trap ∧
              ((w.snippet pt).blobSize = 0 ∨ code.length ≤ (w.snippet pt).blobSize) ∨
            Executable w.rwx (blobBuffer c w pt a .relocBlk) code.length) := by
      intro code generated
      have fits := built.fits_iff code (by rw [blob]; exact generated)
      rw [executable_cons_self (placed.small layout generated),built.rwx,fits]
      simp
    rw [run]
    simp only [Atomic]
    refine (led_iff_usable (Completes c w pt a .relocBlk) layout placed
      (holds_callBlock placed fits built ?_ ?_) ?_ ?_ ?_).trans ⟨fun led _ => led,fun safe => safe ?_⟩
    · cases a.codePerm <;> rfl
    · cases a.codePerm
      · exact .inl rfl
      · exact .inr rfl
    · intro code generated
      cases a.codePerm with
      | false => exact exec code generated
      | true =>
        refine Iff.trans (executable_cons_apart (generate_pos generated) (placed.small layout generated)
          fun x inside site => ?_) (exec code generated)
        exact placed.blob true code generated x inside (inCode fits site)
    · intro code _
      have fresh : w'.freed (blobBuffer c w pt a .relocBlk) = false := by
        rw [built.freed]
        exact getBlob_freed _ _ _ _
      cases a.codePerm <;> exact iff_of_true fresh (.inr (.inl rfl))
    · cases perm : a.codePerm with
      | true =>
        refine iff_of_true ?_ (.inl perm)
        simp only [if_true,PatchLeads,World.write,callBlockJump]
        split
        · rename_i near
          refine .inl ((shortJump_written _).mpr ?_)
          rw [signExtend_disp32 _ near]
          simp only [blobBuffer]
          bv_omega
        · rename_i far
          refine .inr ⟨room.resolve_left far,?_⟩
          simpa [emitJumpAbs,blobBuffer] using longJump_written
      | false =>
        have same : ∀ x, HasCode c x → w'.mem x = w.mem x := fun x code =>
          built.outside fun code' generated inside =>
            placed.blob true code' (by rwa [blob] at generated) x (by rwa [blob] at inside) code
        have short : ShortJump w'.mem (c.blockOf pt).start (blobBuffer c w pt a .relocBlk) ↔
            ShortJump w.mem (c.blockOf pt).start (blobBuffer c w pt a .relocBlk) :=
          shortJump_congr fun x inside => same x (inCode large inside)
        have long : jumpAbsSize ≤ (c.blockOf pt).size →
            (LongJump w'.mem (c.blockOf pt).start (blobBuffer c w pt a .relocBlk) ↔
              LongJump w.mem (c.blockOf pt).start (blobBuffer c w pt a .relocBlk)) :=
          fun wide => longJump_congr fun x inside => same x (inCode wide inside)
        simp only [Bool.false_eq_true,if_false,PatchLeads,Completes,perm,false_or]
        rw [short,and_congr_right long]
    · exact reaches

theorem length_trapBytes (c : Config) : (trapBytes c).length ≤ 2 := by
  unfold trapBytes
  split <;> decide

theorem holds_trap {w' f : World} (layout : Layout c) (placed : Placed c w pt .trap a)
    (built : Built c (ensureBlob (registerTrap c w pt) pt baseEstimateRelocInsnSize a.blob) pt false w')
    (snippet : f.snippet = w'.snippet)
    (mem : f.mem = storeBytes w'.mem (c.blockOf pt).last (trapBytes c)) :
    Holds c w pt a .trap (ensureBlob (registerTrap c w pt) pt baseEstimateRelocInsnSize a.blob) w' f := by
  have blob : ((ensureBlob (registerTrap c w pt) pt baseEstimateRelocInsnSize a.blob).snippet pt).blob =
      blobBuffer c w pt a .trap := ensureBlob_blob _ _ _ _
  refine ⟨built,by simp,by simp,blob,?_,fun code generated x inside => ?_⟩
  · rw [snippet]
    exact built.blob.trans blob
  · rw [mem]
    exact storeBytes_outside _ _ _ _ fun site => placed.blob false code generated x inside
      ⟨_,layout.in_last _ (Nat.le_trans (length_trapBytes c) (layout.call pt)) site⟩

theorem atomic_trap (layout : Layout c) (sound : Sound c w pt) (placed : Placed c w pt .trap a) :
    Atomic c w pt .trap (trapRun c w pt a) ↔
      (Reaches c w pt a .trap → Completes c w pt a .trap ∧ Usable c w pt a .trap) := by
  rcases trap_cases placed with ⟨fails,stops⟩ | ⟨reaches,w',built,run⟩
  · exact ⟨fun _ reaches => absurd reaches fails,fun _ => stops.atomic⟩
  · have blob : ((ensureBlob (registerTrap c w pt) pt baseEstimateRelocInsnSize a.blob).snippet pt).blob =
        blobBuffer c w pt a .trap := ensureBlob_blob _ _ _ _
    have state : (w'.snippet pt).blob = blobBuffer c w pt a .trap := built.blob.trans blob
    have bytes := length_trapBytes c
    have inSite : ∀ {n x}, n ≤ (c.blockOf pt).callSize → In (c.blockOf pt).last n x → HasCode c x :=
      fun fits inside => ⟨_,layout.in_last _ fits inside⟩
    rw [run]
    simp only [Atomic]
    refine (led_iff_usable (Completes c w pt a .trap) layout placed (holds_trap layout placed built ?_ ?_)
      ?_ ?_ ?_).trans ⟨fun led _ => led,fun safe => safe reaches⟩
    · rfl
    · rfl
    · intro code generated
      simp only [World.write]
      rw [executable_cons_apart (generate_pos generated) (placed.small layout generated) fun x inside site =>
        placed.blob false code generated x inside (inSite (Nat.le_refl _) site),built.rwx]
      simp
    · intro code _
      have live := ensureBlob_freed (registerTrap c w pt) pt baseEstimateRelocInsnSize a.blob
      rw [blob] at live
      simpa [World.write,built.freed] using live
    · have map : w'.instMap = fun x => if x = (c.blockOf pt).last then some pt else w.instMap x := by
        rw [built.instMap,ensureBlob_instMap]
        rfl
      have written := bytesAt_storeBytes w'.mem (c.blockOf pt).last (trapBytes c) (by omega)
      simp only [PatchLeads,World.write,written,true_and,Completes]
      cases mode : c.sigill with
      | true =>
        -- the handler looks one byte below the instruction, where this point is not registered
        refine iff_of_false (fun entered => ?_) fun both => Bool.noConfusion both.1
        simp only [onTrap,map,if_true] at entered
        have below : (c.blockOf pt).last - 1 ≠ (c.blockOf pt).last := by bv_omega
        rw [if_neg below] at entered
        cases listed : w.instMap ((c.blockOf pt).last - 1) with
        | none =>
          rw [listed] at entered
          cases entered
        | some q =>
          rw [listed] at entered
          have other := sound.traps _ q listed
          simp only at entered
          split at entered
          · cases entered
          · have same : q = pt := by simpa using entered
            rw [same] at other
            exact below other
      | false =>
        have back : (c.blockOf pt).last + 1 - 1 = (c.blockOf pt).last := by bv_omega
        simp only [Bool.false_eq_true,if_false,onTrap,back,map,if_true,true_and]
        rw [state]
        cases belowPage (blobBuffer c w pt a .trap) with
        | true => simp
        | false => simpa using reaches.1

def springJumps (blob spring : Word) : List Byte :=
  (emitPushImm64 spring ++ [0xc3]) ++ (emitPushImm64 blob ++ [0xc3])

theorem length_springJumps (blob spring : Word) : (springJumps blob spring).length = jumpAbsSize * 2 := by
  simp [springJumps,length_emitPushImm64,jumpAbsSize]

theorem installSpring_eq (f : World) (s : Nat) (blob spring : Word) :
    let start := (c.obj.block s).start
    let hop := [0xeb,(start + BitVec.ofNat 64 jumpAbsSize - ((c.blockOf pt).start + 2)).setWidth 8]
    let g := if permits start a.springBlkPerm then
      {f with rwx := (start,(c.obj.block s).size) :: f.rwx}.write start (springJumps blob spring) else f
    installSpring c f pt s blob spring a =
      if permits (c.blockOf pt).start a.codePerm then
        {g with rwx := ((c.blockOf pt).start,(c.blockOf pt).size) :: g.rwx}.write (c.blockOf pt).start hop
      else g := by
  have jump : ∀ trg p, emitJumpAbs trg p true = emitPushImm64 trg ++ [0xc3] := by
    intro trg p
    simp [emitJumpAbs]
  have size : (emitPushImm64 spring ++ [0xc3]).length = jumpAbsSize := by
    simp [length_emitPushImm64,jumpAbsSize]
  simp only [installSpring,setMemoryPermission,jump,size,springJumps]
  cases permits (c.obj.block s).start a.springBlkPerm <;>
    cases permits (c.blockOf pt).start a.codePerm <;> rfl

theorem longJump_second (m : Memory) (start blob spring : Word) :
    LongJump (storeBytes m start (springJumps blob spring)) (start + BitVec.ofNat 64 jumpAbsSize) blob := by
  have size : ∀ trg, (emitPushImm64 trg ++ [0xc3]).length = jumpAbsSize := by
    intro trg
    simp [length_emitPushImm64,jumpAbsSize]
  rw [springJumps,← storeBytes_append jumpAbsSize jumpAbsSize (size spring) (size blob) rfl (by decide)]
  refine (longJump_congr fun x inside => storeBytes_outside _ _ _ _ fun first => ?_).mpr longJump_written
  rw [size] at first
  exact apart_next start (by decide) x first inside

theorem installSpring_keeps (f : World) (s : Nat) (blob spring : Word) :
    (installSpring c f pt s blob spring a).snippet = f.snippet ∧
      (installSpring c f pt s blob spring a).freed = f.freed := by
  simp only [installSpring_eq]
  cases permits (c.obj.block s).start a.springBlkPerm <;>
    cases permits (c.blockOf pt).start a.codePerm <;> exact ⟨rfl,rfl⟩

theorem installSpring_outside {f : World} {s : Nat} {blob spring p : Word} {n : Nat} (layout : Layout c)
    (ok : SpringOk c (c.blockOf pt).start s) (some : 0 < n) (small : n ≤ 2 ^ 64)
    (apart : ∀ x, In p n x → ¬HasCode c x) :
    (∀ x, In p n x → (installSpring c f pt s blob spring a).mem x = f.mem x) ∧
      (Executable (installSpring c f pt s blob spring a).rwx p n ↔ Executable f.rwx p n) := by
  have length : (springJumps blob spring).length ≤ (c.obj.block s).size := by
    have split := layout.last s
    have room := ok.2
    rw [length_springJumps]
    omega
  have call : 2 ≤ (c.blockOf pt).size := Nat.le_trans (layout.call pt) (layout.size_ge _)
  have away : ∀ b, Apart p n (c.obj.block b).start (c.obj.block b).size :=
    fun b x inside code => apart x inside ⟨b,code⟩
  have own : Apart p n (c.blockOf pt).start (c.blockOf pt).size := away _
  simp only [installSpring_eq]
  constructor
  · intro x inside
    have first : ∀ m, storeBytes m (c.obj.block s).start (springJumps blob spring) x = m x :=
      fun m => storeBytes_outside _ _ _ _ fun site => away s x inside (site.widen length)
    have second : ∀ m d, storeBytes m (c.blockOf pt).start [0xeb,d] x = m x :=
      fun m d => storeBytes_outside _ _ _ _ fun site => own x inside (site.widen call)
    cases permits (c.obj.block s).start a.springBlkPerm <;>
      cases permits (c.blockOf pt).start a.codePerm <;>
        simp only [World.write,first,second,Bool.false_eq_true,if_false,if_true]
  · cases permits (c.obj.block s).start a.springBlkPerm <;>
      cases permits (c.blockOf pt).start a.codePerm <;>
        simp only [World.write,executable_cons_apart some small (away s),
          executable_cons_apart some small own,Bool.false_eq_true,if_false,if_true]

section
variable {s : Nat} {blob spring : Word} {f : World}

theorem in_spring (layout : Layout c) (ok : SpringOk c (c.blockOf pt).start s) {x : Word}
    (inside : In (c.obj.block s).start (jumpAbsSize * 2) x) : In (c.obj.block s).start (c.obj.block s).size x := by
  have split := layout.last s
  have room := ok.2
  exact inside.widen (by omega)

theorem in_second {x : Word} (inside : In ((c.obj.block s).start + BitVec.ofNat 64 jumpAbsSize) jumpAbsSize x) :
    In (c.obj.block s).start (jumpAbsSize * 2) x :=
  inside.shift (by decide) (by decide)

theorem in_hop (layout : Layout c) {x : Word} (inside : In (c.blockOf pt).start 2 x) :
    In (c.blockOf pt).start (c.blockOf pt).size x :=
  inside.widen (Nat.le_trans (layout.call pt) (layout.size_ge _))

/-- The short jump lies apart from another block's long jumps. -/
theorem hop_apart (layout : Layout c) (ok : SpringOk c (c.blockOf pt).start s)
    (other : s ≠ (c.point pt).block) : Apart (c.blockOf pt).start 2 (c.obj.block s).start (jumpAbsSize * 2) :=
  (layout.apart _ _ other.symm).mono (fun _ inside => in_hop layout inside) fun _ inside => in_spring layout ok inside

/-- And from the second one of its own block. -/
theorem hop_apart_second (layout : Layout c) (ok : SpringOk c (c.blockOf pt).start s) :
    Apart (c.blockOf pt).start 2 ((c.obj.block s).start + BitVec.ofNat 64 jumpAbsSize) jumpAbsSize := by
  by_cases own : s = (c.point pt).block
  · have same : (c.blockOf pt).start = (c.obj.block s).start + BitVec.ofNat 64 0 := by
      simp [Config.blockOf,own]
    rw [same]
    exact apart_shift _ (by decide) (by decide)
  · exact fun x first second => hop_apart layout ok own x first (in_second second)

/-- The memory between the two writes: after the spring block, before the call block. -/
def springMemory (a : Answers) (c : Config) (s : Nat) (blob spring : Word) (m : Memory) : Memory :=
  if a.springBlkPerm then storeBytes m (c.obj.block s).start (springJumps blob spring) else m

theorem installSpring_mem (above : belowPage (c.obj.block s).start = false) :
    (installSpring c f pt s blob spring a).mem =
      if permits (c.blockOf pt).start a.codePerm then
        storeBytes (springMemory a c s blob spring f.mem) (c.blockOf pt).start
          [0xeb,((c.obj.block s).start + BitVec.ofNat 64 jumpAbsSize - ((c.blockOf pt).start + 2)).setWidth 8]
      else springMemory a c s blob spring f.mem := by
  simp only [installSpring_eq,permits_of_page above,springMemory]
  cases a.springBlkPerm <;> cases permits (c.blockOf pt).start a.codePerm <;> rfl

theorem springMemory_long (layout : Layout c) (ok : SpringOk c (c.blockOf pt).start s)
    (same : ∀ x, HasCode c x → f.mem x = w.mem x) :
    let jump := (c.obj.block s).start + BitVec.ofNat 64 jumpAbsSize
    LongJump (springMemory a c s blob spring f.mem) jump blob ↔ a.springBlkPerm = true ∨ LongJump w.mem jump blob := by
  intro jump
  cases perm : a.springBlkPerm with
  | true =>
    refine iff_of_true ?_ (.inl rfl)
    simp only [springMemory,perm,if_true]
    exact longJump_second _ _ _ _
  | false =>
    simp only [springMemory,perm,Bool.false_eq_true,if_false,false_or]
    exact longJump_congr fun x inside => same x ⟨s,in_spring layout ok (in_second inside)⟩

theorem springMemory_hop (layout : Layout c) (ok : SpringOk c (c.blockOf pt).start s)
    (same : ∀ x, HasCode c x → f.mem x = w.mem x) (target : Word) :
    Hop (springMemory a c s blob spring f.mem) (c.blockOf pt).start target ↔
      Hop w.mem (c.blockOf pt).start target ∧ (s = (c.point pt).block → a.springBlkPerm = false) := by
  have site : ∀ x, In (c.blockOf pt).start 2 x → f.mem x = w.mem x :=
    fun x inside => same x ⟨_,in_hop layout inside⟩
  cases perm : a.springBlkPerm with
  | false =>
    simp only [springMemory,perm,Bool.false_eq_true,if_false,implies_true,and_true]
    exact hop_congr site
  | true =>
    simp only [springMemory,perm,if_true]
    by_cases own : s = (c.point pt).block
    · -- the first long jump has overwritten the site
      refine iff_of_false (fun hops => ?_) fun both => Bool.noConfusion (both.2 own)
      have first := hops.1
      have start : (c.blockOf pt).start = (c.obj.block s).start := by simp [Config.blockOf,own]
      rw [start,storeBytes_inside _ _ _ _ (by rw [length_springJumps]; simp [jumpAbsSize])] at first
      simp [springJumps,emitPushImm64] at first
    · have kept : Hop (storeBytes f.mem (c.obj.block s).start (springJumps blob spring))
          (c.blockOf pt).start target ↔ Hop w.mem (c.blockOf pt).start target := by
        refine hop_congr fun x inside => (storeBytes_outside _ _ _ _ fun written => ?_).trans (site x inside)
        rw [length_springJumps] at written
        exact hop_apart layout ok own x inside written
      simp [kept,own]

theorem spring_sites (layout : Layout c)
    (ok : SpringOk c (c.blockOf pt).start s) (same : ∀ x, HasCode c x → f.mem x = w.mem x)
    (above : belowPage (c.obj.block s).start = false) :
    let jump := (c.obj.block s).start + BitVec.ofNat 64 jumpAbsSize
    let g := installSpring c f pt s blob spring a
    (Hop g.mem (c.blockOf pt).start jump ∧ LongJump g.mem jump blob) ↔
      (a.springBlkPerm = true ∨ LongJump w.mem jump blob) ∧
      (permits (c.blockOf pt).start a.codePerm = true ∨
        Hop w.mem (c.blockOf pt).start jump ∧ (s = (c.point pt).block → a.springBlkPerm = false)) := by
  intro jump g
  have mem : g.mem = _ := installSpring_mem above
  have long : LongJump g.mem jump blob ↔ a.springBlkPerm = true ∨ LongJump w.mem jump blob := by
    have between : LongJump (springMemory a c s blob spring f.mem) jump blob ↔ _ := springMemory_long layout ok same
    rw [← between]
    refine longJump_congr fun x inside => ?_
    rw [mem]
    split
    · exact storeBytes_outside _ _ _ _ fun site => hop_apart_second layout ok x site inside
    · rfl
  have hop : Hop g.mem (c.blockOf pt).start jump ↔ permits (c.blockOf pt).start a.codePerm = true ∨
      Hop w.mem (c.blockOf pt).start jump ∧ (s = (c.point pt).block → a.springBlkPerm = false) := by
    rw [mem]
    cases site : permits (c.blockOf pt).start a.codePerm with
    | true =>
      refine iff_of_true ?_ (.inl rfl)
      rw [if_pos rfl,hop_written,signExtend_disp8 _ ok.1]
      ring
    | false =>
      rw [if_neg (by simp),springMemory_hop layout ok same]
      simp only [Bool.false_eq_true,false_or]
  rw [hop,long,and_comm]

end

theorem holds_springboard {s : Nat} {moved : List Byte} {w' : World} (layout : Layout c)
    (placed : Placed c w pt .springboard a) (ok : SpringOk c (c.blockOf pt).start s)
    (made : springCode c s (springBuffer c a s) = some moved)
    (built : Built c (ensureBlob (findSpringboard c w pt).2 pt
      (baseEstimateRelocBlockSize (c.blockOf pt)) a.blob) pt true w') :
    let blob := blobBuffer c w pt a .springboard
    Holds c w pt a .springboard (ensureBlob (findSpringboard c w pt).2 pt
        (baseEstimateRelocBlockSize (c.blockOf pt)) a.blob) w'
      (installSpring c (springReady w' pt blob (springBuffer c a s) moved) pt s blob (springBuffer c a s) a) := by
  intro buffer
  obtain ⟨blob₀,size₀⟩ := findSpringboard_snippet (c := c) w pt
  have blob : ((ensureBlob (findSpringboard c w pt).2 pt (baseEstimateRelocBlockSize (c.blockOf pt))
      a.blob).snippet pt).blob = buffer := by
    rw [ensureBlob_blob,blob₀]
    rfl
  have state : (w'.snippet pt).blob = buffer := built.blob.trans blob
  refine ⟨built,by rw [ensureBlob_mem,findSpringboard_mem],by rw [ensureBlob_blobSize,size₀],blob,?_,
    fun code generated x inside => ?_⟩
  · rw [(installSpring_keeps _ _ _ _).1]
    simpa [springReady] using state
  · rw [(installSpring_outside layout ok (generate_pos generated) (placed.small layout generated)
      (placed.blob true code generated)).1 x inside]
    exact storeBytes_outside _ _ _ _ fun other =>
      (placed.spring rfl s moved made x other).2 true code generated inside

theorem springReady_code {s : Nat} {moved : List Byte} {w' : World} (placed : Placed c w pt .springboard a)
    (made : springCode c s (springBuffer c a s) = some moved)
    (built : Built c (ensureBlob (findSpringboard c w pt).2 pt
      (baseEstimateRelocBlockSize (c.blockOf pt)) a.blob) pt true w') {x : Word} (code : HasCode c x) :
    (springReady w' pt (blobBuffer c w pt a .springboard) (springBuffer c a s) moved).mem x = w.mem x := by
  have buffer : ((ensureBlob (findSpringboard c w pt).2 pt (baseEstimateRelocBlockSize (c.blockOf pt))
      a.blob).snippet pt).blob = blobBuffer c w pt a .springboard := by
    rw [ensureBlob_blob,(findSpringboard_snippet w pt).1]
    rfl
  have kept := built.outside (x := x) fun code' generated inside =>
    placed.blob true code' (by rwa [buffer] at generated) x (by rwa [buffer] at inside) code
  rw [ensureBlob_mem,findSpringboard_mem] at kept
  exact (storeBytes_outside _ _ _ _ fun other => (placed.spring rfl s moved made x other).1 code).trans kept

theorem atomic_springboard (layout : Layout c) (sound : Sound c w pt)
    (placed : Placed c w pt .springboard a) :
    Atomic c w pt .springboard (springboardRun c w pt a) ↔
      (Reaches c w pt a .springboard →
        Completes c w pt a .springboard ∧ Usable c w pt a .springboard) := by
  rcases springboard_cases placed with ⟨fails,stops⟩ | ⟨reaches,s,moved,w',chosen,made,built,run⟩
  · exact ⟨fun _ reaches => absurd reaches fails,fun _ => stops.atomic⟩
  · obtain ⟨found,search⟩ : ∃ found, findSpringboard c w pt = (some s,found) :=
      ⟨_,Prod.ext chosen rfl⟩
    have known : SpringOk c (c.blockOf pt).start s ∧ (found.snippet pt).springBlk = some s ∧
        (found.snippet pt).blob = (w.snippet pt).blob ∧
        (found.snippet pt).blobSize = (w.snippet pt).blobSize ∧ found.rwx = w.rwx ∧
        found.freed = w.freed := by
      rcases findSpringboard_cases (c := c) w pt with ⟨s',cached,eq⟩ | ⟨_,eq | ⟨s',fits,eq⟩⟩
      · obtain ⟨rfl,rfl⟩ : s' = s ∧ w = found := by simpa [eq] using search
        exact ⟨sound.springs _ cached,cached,rfl,rfl,rfl,rfl⟩
      · simp [eq] at search
      · rw [eq,Prod.mk.injEq,Option.some.injEq] at search
        obtain ⟨rfl,rfl⟩ := search
        simpa [World.setSnippet] using (suitable_iff.mp fits).1
    obtain ⟨ok,spring,blob₀,size₀,rwx₀,freed₀⟩ := known
    have site : belowPage (c.obj.block s).start = false := by
      obtain ⟨_,_,_,_,s',chosen',_,_,_,_,site⟩ := reaches
      rw [chosen'] at chosen
      rwa [Option.some.inj chosen] at site
    have holds := holds_springboard layout placed ok made built
    have same : ∀ x, HasCode c x → (springReady w' pt (blobBuffer c w pt a .springboard)
        (springBuffer c a s) moved).mem x = w.mem x := fun x code => springReady_code placed made built code
    rw [search] at built
    have blob : ((ensureBlob found pt (baseEstimateRelocBlockSize (c.blockOf pt)) a.blob).snippet pt).blob =
        blobBuffer c w pt a .springboard := by
      rw [ensureBlob_blob,blob₀]
      rfl
    have state : (w'.snippet pt).blob = blobBuffer c w pt a .springboard := built.blob.trans blob
    have apart : ∀ code, (c.snippet pt).generate c.lib true (blobBuffer c w pt a .springboard) = some code →
        Apart (blobBuffer c w pt a .springboard) code.length (springBuffer c a s) moved.length :=
      fun code generated x first second => (placed.spring rfl s moved made x second).2 true code generated first
    rw [run]
    simp only [Atomic]
    refine (led_iff_usable (Completes c w pt a .springboard) layout placed holds ?_ ?_ ?_).trans
      ⟨fun led _ => led,fun safe => safe reaches⟩
    · intro code generated
      have fits := built.fits_iff code (by rw [blob]; exact generated)
      have some := generate_pos generated
      have small := placed.small layout generated
      rw [(installSpring_outside layout ok some small (placed.blob true code generated)).2]
      simp only [springReady,World.write,World.setSnippet]
      rw [executable_cons_apart some small (apart code generated),executable_cons_self small,built.rwx,fits]
      simp [size₀,rwx₀]
    · intro code generated
      rw [(installSpring_keeps _ _ _ _).2]
      have live := ensureBlob_freed found pt (baseEstimateRelocBlockSize (c.blockOf pt)) a.blob
      rw [blob,blob₀,freed₀] at live
      have kept : (springReady w' pt (blobBuffer c w pt a .springboard) (springBuffer c a s) moved).freed
          (blobBuffer c w pt a .springboard) =
            (w'.freed (blobBuffer c w pt a .springboard) &&
              blobBuffer c w pt a .springboard != springBuffer c a s) := rfl
      have differ : blobBuffer c w pt a .springboard ≠ springBuffer c a s := by
        intro same
        have first : In (springBuffer c a s) moved.length (springBuffer c a s + BitVec.ofNat 64 0) :=
          in_base (springCode_pos made) (placed.smallSpring layout rfl made)
        refine apart code generated _ ?_ first
        rw [same]
        exact in_base (generate_pos generated) (placed.small layout generated)
      rw [kept,bne_iff_ne.mpr differ,Bool.and_true,built.freed,live]
      simp
    · simp only [PatchLeads,(installSpring_keeps _ _ _ _).1]
      have back : ((springReady w' pt (blobBuffer c w pt a .springboard) (springBuffer c a s) moved).snippet
          pt).springBlk = some s := by
        have cached := built.springBlk
        rw [ensureBlob_springBlk,spring] at cached
        simpa [springReady] using cached
      have sites := @spring_sites c w pt a s (blobBuffer c w pt a .springboard)
        (springBuffer c a s) _ layout ok same site
      simp only [back,Option.some.injEq,exists_eq_left',sites,Completes,chosen,forall_eq']

end

end SelfPropelled.Workers
