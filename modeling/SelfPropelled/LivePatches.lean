import SelfPropelled.BlockPatch
import SelfPropelled.TrapDispatch

/-! Instrumented points stay instrumented: in every run of installations, whatever the later
ones do, the code of each point leads to its complete, executable blob. -/

namespace SelfPropelled.Workers
open Machine

/-- Outside the set the memory is the same and nothing more is freed; what was executable
still is. -/
structure Confined (mine : Word → Prop) (w w' : World) : Prop where
  mem : ∀ x, ¬mine x → w'.mem x = w.mem x
  freed : ∀ x, ¬mine x → w'.freed x = true → w.freed x = true
  rwx : ∀ r ∈ w.rwx, r ∈ w'.rwx

section
variable (c : Config)

/-- A byte of the buffers that an attempt generates code to. -/
def InBuffers (w : World) (pt : Nat) (a : Answers) (k : InstallMethod) (x : Word) : Prop :=
  x = blobBuffer c w pt a k ∨
  (∃ reloc code, (c.snippet pt).generate c.lib reloc (blobBuffer c w pt a k) = some code ∧
    In (blobBuffer c w pt a k) code.length x) ∨
  k = .springboard ∧ ∃ s moved, springCode c s (springBuffer c a s) = some moved ∧
    In (springBuffer c a s) moved.length x

/-- A byte of the code generated for an instrumented point. -/
def Occupied (w : World) (q : Nat) (x : Word) : Prop :=
  ∃ k code, w.method q = some k ∧ (c.snippet q).generate c.lib k.reloc (w.snippet q).blob = some code ∧
    In (w.snippet q).blob code.length x

end

section
variable {c : Config} {pt : Nat} {w w' w'' : World} {a : Answers} {k : InstallMethod} {mine : Word → Prop}

namespace Confined

theorem refl (w : World) : Confined mine w w := ⟨fun _ _ => rfl,fun _ _ => id,fun _ => id⟩

theorem trans (first : Confined mine w w') (second : Confined mine w' w'') : Confined mine w w'' where
  mem x out := (second.mem x out).trans (first.mem x out)
  freed x out freed := first.freed x out (second.freed x out freed)
  rwx r member := second.rwx r (first.rwx r member)

theorem snippet (w : World) (s : SnippetState) : Confined mine w (w.setSnippet pt s) :=
  ⟨fun _ _ => rfl,fun _ _ => id,fun _ => id⟩

theorem write {b : Word} {bs : List Byte} (w : World) (own : ∀ x, In b bs.length x → mine x) :
    Confined mine w (w.write b bs) :=
  ⟨fun x out => storeBytes_outside _ _ _ _ fun inside => out (own x inside),fun _ _ => id,fun _ => id⟩

theorem free (w : World) {buf : Word} (own : mine buf) : Confined mine w (w.free buf) := by
  refine ⟨fun _ _ => rfl,fun x out freed => ?_,fun _ => id⟩
  rcases Bool.or_eq_true_iff.mp freed with here | old
  · exact absurd (eq_of_beq here ▸ own) out
  · exact old

theorem permission {b : Word} {n : Nat} {granted : Bool} (set : setMemoryPermission w b n granted = some w') :
    Confined mine w w' := by
  rw [setMemoryPermission_some set]
  exact ⟨fun _ _ => rfl,fun _ _ => id,fun _ => List.mem_cons_of_mem _⟩

theorem getBlob (w : World) (pt est : Nat) (malloc : Nat → Word) : Confined mine w (getBlob w pt est malloc) :=
  ⟨fun _ _ => rfl,fun _ _ freed => (Bool.and_eq_true_iff.mp freed).1,fun _ => id⟩

theorem ensureBlob (w : World) (pt est : Nat) (malloc : Nat → Word) : Confined mine w (ensureBlob w pt est malloc) := by
  unfold Workers.ensureBlob
  split
  · exact getBlob w pt est malloc
  · exact refl w

theorem buildBlob {est : Nat} {reloc : Bool} {malloc : Nat → Word} {blob : Word}
    (own : ∀ code, (c.snippet pt).generate c.lib reloc ((Workers.ensureBlob w pt est malloc).snippet pt).blob = some code →
      ∀ x, In ((Workers.ensureBlob w pt est malloc).snippet pt).blob code.length x → mine x)
    (built : buildBlob c w pt est reloc malloc = some (blob,w')) : Confined mine w w' := by
  have ensured : Confined mine w (Workers.ensureBlob w pt est malloc) := ensureBlob w pt est malloc
  simp only [Workers.buildBlob] at built
  split at built
  · cases built
    exact ensured
  · split at built
    · cases built
      exact ensured
    · split at built
      · cases built
      next code generated =>
        cases built
        exact (ensured.trans (write _ (own code generated))).trans (snippet _ _)

theorem findSpringboard (w : World) : Confined mine w (findSpringboard c w pt).2 := by
  rcases findSpringboard_cases (c := c) w pt with ⟨s,_,eq⟩ | ⟨_,eq | ⟨s,_,eq⟩⟩
  · rw [eq]
    exact refl w
  · rw [eq]
    exact refl w
  · rw [eq]
    exact ⟨fun _ _ => rfl,fun _ _ => id,fun _ => id⟩

theorem saved {ok : Bool} (saves : save c w pt k = (ok,w')) : Confined mine w w' := by
  cases k with
  | springboard =>
    have searched : Confined mine w (Workers.findSpringboard c w pt).2 := findSpringboard w
    simp only [save] at saves
    cases found : Workers.findSpringboard c w pt with
    | mk s w₁ =>
      rw [found] at saves searched
      cases s <;> cases saves <;> exact searched
  | trap | relocInsn | relocBlk =>
    cases saves
    exact refl w

theorem buildBlob_eq {est : Nat} {reloc : Bool} {malloc : Nat → Word} {blob : Word}
    (built : Workers.buildBlob c w pt est reloc malloc = some (blob,w')) :
    blob = ((Workers.ensureBlob w pt est malloc).snippet pt).blob := by
  simp only [Workers.buildBlob] at built
  split at built
  next null =>
    cases built
    exact null.symm
  · split at built
    · cases built
      rfl
    · split at built <;> cases built
      rfl

theorem installJumpToBlock {jump : List Byte} (code : ∀ x, HasCode c x → mine x) (fits : jump.length ≤ (c.blockOf pt).size)
    (own : ∀ made, (c.snippet pt).generate c.lib true ((Workers.ensureBlob w pt
        (baseEstimateRelocBlockSize (c.blockOf pt)) a.blob).snippet pt).blob = some made →
      ∀ x, In ((Workers.ensureBlob w pt (baseEstimateRelocBlockSize (c.blockOf pt)) a.blob).snippet pt).blob
        made.length x → mine x) : Confined mine w (installJumpToBlock c w pt a jump).2 := by
  have site : ∀ x, In (c.blockOf pt).start jump.length x → mine x := fun x inside => code x ⟨_,inside.widen fits⟩
  simp only [Workers.installJumpToBlock]
  split
  · exact refl w
  next blob w₁ built =>
    have made := buildBlob own built
    split
    · exact made
    split
    · exact made
    next w₂ permitted =>
      have ready := made.trans (permission permitted)
      split
      · exact ready
      split
      · exact ready
      next w₃ permitted' => exact (ready.trans (permission permitted')).trans (write w₃ site)

theorem callBlockRun (code : ∀ x, HasCode c x → mine x) (own : ∀ x, InBuffers c w pt a .relocBlk x → mine x) :
    Confined mine w (callBlockRun c w pt a).2 := by
  have got : Confined mine w (Workers.getBlob w pt (baseEstimateRelocBlockSize (c.blockOf pt)) a.blob) :=
    getBlob w pt _ a.blob
  simp only [Workers.callBlockRun]
  split
  · exact got
  next there =>
  split
  · exact got
  next large =>
  have same := ensureBlob_of_blob (baseEstimateRelocBlockSize (c.blockOf pt)) a.blob there
  have blob : ((Workers.getBlob w pt (baseEstimateRelocBlockSize (c.blockOf pt)) a.blob).snippet pt).blob =
      blobBuffer c w pt a .relocBlk := by
    rw [getBlob_snippet]
    rfl
  have its : ∀ made, (c.snippet pt).generate c.lib true ((Workers.ensureBlob
        (Workers.getBlob w pt (baseEstimateRelocBlockSize (c.blockOf pt)) a.blob) pt
        (baseEstimateRelocBlockSize (c.blockOf pt)) a.blob).snippet pt).blob = some made →
      ∀ x, In ((Workers.ensureBlob (Workers.getBlob w pt (baseEstimateRelocBlockSize (c.blockOf pt)) a.blob) pt
        (baseEstimateRelocBlockSize (c.blockOf pt)) a.blob).snippet pt).blob made.length x → mine x := by
    intro made generated x inside
    rw [same,blob] at generated inside
    exact own x (.inr (.inl ⟨true,made,generated,inside⟩))
  split
  · exact got.trans (installJumpToBlock code (by simpa using large) its)
  split
  next room => exact got.trans (installJumpToBlock code (by simpa [emitJumpAbs,length_emitPushImm64,jumpAbsSize] using room) its)
  · exact got

section
variable (layout : Layout c) (code : ∀ x, HasCode c x → mine x)
include layout code

theorem callInsnRun (own : ∀ x, InBuffers c w pt a .relocInsn x → mine x) : Confined mine w (callInsnRun c w pt a).2 := by
  simp only [Workers.callInsnRun]
  split
  · exact refl w
  next large =>
  split
  · exact refl w
  have got : Confined mine w (Workers.getBlob w pt baseEstimateRelocInsnSize a.blob) := getBlob w pt _ a.blob
  split
  · exact got
  next there =>
  split
  · exact got
  have same := ensureBlob_of_blob baseEstimateRelocInsnSize a.blob there
  have blob : ((Workers.getBlob w pt baseEstimateRelocInsnSize a.blob).snippet pt).blob = blobBuffer c w pt a .relocInsn := by
    rw [getBlob_snippet]
    rfl
  have its : ∀ reloc made, (c.snippet pt).generate c.lib reloc (blobBuffer c w pt a .relocInsn) = some made →
      ∀ x, In (blobBuffer c w pt a .relocInsn) made.length x → mine x :=
    fun reloc made generated x inside => own x (.inr (.inl ⟨reloc,made,generated,inside⟩))
  simp only [callInsnInstall]
  split
  · exact got
  split
  · exact got
  next blob' w₁ built =>
    have made := got.trans (buildBlob (fun made generated => by
      rw [same,blob] at generated ⊢
      exact its _ made generated) built)
    split
    · exact made
    split
    · exact made
    split
    · exact made
    split
    · exact made
    next w₂ permitted =>
      have site : ∀ x, In (c.blockOf pt).last (callInsnJump (c.blockOf pt) blob').length x → mine x := by
        intro x inside
        rw [length_callInsnJump] at inside
        exact code x ⟨_,layout.in_last _ (Nat.le_of_not_lt large) inside⟩
      have patched := (made.trans (permission permitted)).trans (write w₂ site)
      split
      · refine patched.trans (free _ (own _ (.inl ?_)))
        rw [buildBlob_eq built,same,blob]
      next w₃ permitted' => exact patched.trans (permission permitted')

theorem installSpring {s : Nat} {blob spring : Word} (ok : SpringOk c (c.blockOf pt).start s) :
    Confined mine w (installSpring c w pt s blob spring a) := by
  have first : ∀ x, In (c.obj.block s).start (springJumps blob spring).length x → mine x := by
    intro x inside
    have split := layout.last s
    have room := ok.2
    refine code x ⟨s,inside.widen ?_⟩
    rw [length_springJumps]
    omega
  have second : ∀ (d : Byte) x, In (c.blockOf pt).start [0xeb,d].length x → mine x := fun d x inside =>
    code x ⟨_,inside.widen (Nat.le_trans (layout.call pt) (layout.size_ge _))⟩
  have allowed : ∀ (w : World) r, Confined mine w {w with rwx := r :: w.rwx} := fun w r =>
    ⟨fun _ _ => rfl,fun _ _ => id,fun _ => List.mem_cons_of_mem _⟩
  rw [installSpring_eq]
  cases permits (c.obj.block s).start a.springBlkPerm <;> cases permits (c.blockOf pt).start a.codePerm
  · exact refl w
  · exact (allowed w _).trans (write _ (second _))
  · exact (allowed w _).trans (write _ first)
  · exact ((allowed w _).trans (write _ first)).trans ((allowed _ _).trans (write _ (second _)))

theorem springboardRun (springs : SpringsOk c pt w) (own : ∀ x, InBuffers c w pt a .springboard x → mine x) :
    Confined mine w (springboardRun c w pt a).2 := by
  have searched : Confined mine w (Workers.findSpringboard c w pt).2 := findSpringboard w
  have chosen := fun s => springs.chosen (s := s)
  have blob := (findSpringboard_snippet (c := c) w pt).1
  simp only [Workers.springboardRun]
  split
  next w₁ found =>
    rw [found] at searched
    exact searched
  next s w₁ found =>
    rw [found] at searched blob
    have ok := chosen s (by rw [found])
    split
    · exact searched
    next buf w₂ built =>
      have made := searched.trans (buildBlob (fun made generated x inside => by
        rw [ensureBlob_blob,blob] at generated inside
        exact own x (.inr (.inl ⟨true,made,generated,inside⟩))) built)
      simp only [springboardInstall]
      split
      · exact made
      split
      · exact made
      next w₃ permitted =>
        have ready := made.trans (permission permitted)
        split
        · exact ready
        next spring w₄ moved =>
          have relocated : Confined mine w w₄ ∧ spring = springBuffer c a s := by
            simp only [relocateSpring] at moved
            split at moved
            · cases moved
            split at moved
            · cases moved
            next code' made' =>
              obtain ⟨rfl,rfl⟩ := Prod.mk.inj (Except.ok.inj moved)
              refine ⟨ready.trans ?_,rfl⟩
              have buffer : ∀ x, In (springBuffer c a s) code'.length x → mine x := fun x inside =>
                own x (.inr (.inr ⟨rfl,s,code',made',inside⟩))
              have unfreed : Confined mine w₃ {w₃ with freed := fun x => w₃.freed x && x != springBuffer c a s} :=
                ⟨fun _ _ => rfl,fun _ _ freed => (Bool.and_eq_true_iff.mp freed).1,fun _ => id⟩
              exact (unfreed.trans (write _ buffer)).trans (snippet _ _)
          obtain ⟨relocated,rfl⟩ := relocated
          split
          · exact relocated
          split
          · exact relocated
          next w₅ permitted' =>
            have permitted := relocated.trans (permission permitted')
            split
            · exact permitted
            · exact permitted.trans (installSpring layout code ok)

theorem trapRun (own : ∀ x, InBuffers c w pt a .trap x → mine x) : Confined mine w (trapRun c w pt a).2 := by
  have registered : Confined mine w (registerTrap c w pt) := ⟨fun _ _ => rfl,fun _ _ => id,fun _ => id⟩
  simp only [Workers.trapRun]
  split
  · exact registered
  split
  · exact registered
  next blob w₁ built =>
    have made := registered.trans (buildBlob (fun made generated x inside => by
      rw [ensureBlob_blob] at generated inside
      exact own x (.inr (.inl ⟨false,made,generated,inside⟩))) built)
    split
    · exact made
    split
    · exact made
    next w₂ permitted =>
      have site : ∀ x, In (c.blockOf pt).last (trapBytes c).length x → mine x := fun x inside =>
        code x ⟨_,layout.in_last _ (Nat.le_trans (length_trapBytes c) (layout.call pt)) inside⟩
      exact (made.trans (permission permitted)).trans (write w₂ site)

/-- An attempt writes to the code and to its own buffers only. -/
theorem worker (springs : SpringsOk c pt w) (own : ∀ x, InBuffers c w pt a k x → mine x) :
    Confined mine w (worker c w pt a k).2 := by
  cases k with
  | relocInsn => exact callInsnRun layout code own
  | relocBlk => exact callBlockRun code own
  | springboard => exact springboardRun layout code springs own
  | trap => exact trapRun layout code own

end

end Confined

end

section
variable (c : Config)

/-- The patch of a point leads to its blob, in the form it was written. -/
def Site (w : World) (q : Nat) : InstallMethod → Prop
  | .relocInsn => ShortJump w.mem (c.blockOf q).last (w.snippet q).blob
  | .relocBlk =>
    if isDisp32 ((w.snippet q).blob - (c.blockOf q).start - 5) = true then
      ShortJump w.mem (c.blockOf q).start (w.snippet q).blob
    else jumpAbsSize ≤ (c.blockOf q).size ∧ LongJump w.mem (c.blockOf q).start (w.snippet q).blob
  | .springboard => ∃ s, (w.snippet q).springBlk = some s ∧
      Hop w.mem (c.blockOf q).start ((c.obj.block s).start + BitVec.ofNat 64 jumpAbsSize) ∧
      LongJump w.mem ((c.obj.block s).start + BitVec.ofNat 64 jumpAbsSize) (w.snippet q).blob
  | .trap => bytesAt w.mem (c.blockOf q).last (trapBytes c).length = trapBytes c ∧ c.sigill = false ∧
      w.instMap (c.blockOf q).last = some q ∧ (w.snippet q).blob ≠ 0 ∧ belowPage (w.snippet q).blob = false

/-- The ranges of code that a point's patch is read from. -/
def sites (w : World) (q : Nat) : InstallMethod → List Patch
  | .relocInsn => [⟨q,.last,5⟩]
  | .relocBlk => [⟨q,.start,(callBlockJump (c.blockOf q) (w.snippet q).blob).length⟩]
  | .springboard => ((w.snippet q).springBlk.toList.map fun s => ⟨q,.spring s,jumpAbsSize * 2⟩) ++ [⟨q,.start,2⟩]
  | .trap => [⟨q,.last,(trapBytes c).length⟩]

/-- The kernel grants the changes of permission whose refusal the workers only report. -/
def Granted (pt : Nat) (a : Answers) : InstallMethod → Prop
  | .relocBlk => a.codePerm = true
  | .springboard => a.springBlkPerm = true ∧ permits (c.blockOf pt).start a.codePerm = true
  | .relocInsn | .trap => True

/-- What each attempt of a run meets: it is clear of the other points' spring blocks and its
run atomic, and the allocator hands out no bytes of the blobs in use. -/
structure Kept (w : World) (pt : Nat) (k : InstallMethod) (a : Answers) : Prop where
  clear : Clear c w pt k a
  meets : Meets c w pt a k
  granted : Granted c pt a k
  buffers : ∀ q x, q ≠ pt → Occupied c w q x → ¬InBuffers c w pt a k x

/-- An instrumented point: its blob is complete, executable, in use and apart from the
code, and the patches that lead to it are in the log. -/
structure Live (log : List Patch) (w : World) (q : Nat) (k : InstallMethod) : Prop where
  blob : ∃ code, (c.snippet q).generate c.lib k.reloc (w.snippet q).blob = some code ∧
    bytesAt w.mem (w.snippet q).blob code.length = code ∧ Executable w.rwx (w.snippet q).blob code.length ∧
    ∀ x, In (w.snippet q).blob code.length x → ¬HasCode c x
  used : w.freed (w.snippet q).blob = false
  site : Site c w q k
  logged : ∀ p ∈ sites c w q k, p ∈ log

/-- What an attempt on another point leaves of an instrumented one. -/
structure Spares (q : Nat) (w w' : World) : Prop where
  snippet : w'.snippet q = w.snippet q
  method : w'.method q = w.method q
  mem : ∀ x, Occupied c w q x → w'.mem x = w.mem x
  freed : ∀ x, Occupied c w q x → w'.freed x = true → w.freed x = true
  rwx : ∀ r ∈ w.rwx, r ∈ w'.rwx

end

section
variable {c : Config} {pt q : Nat} {w w' w'' : World} {a : Answers} {k : InstallMethod} {log log' : List Patch}

theorem Site.leads (site : Site c w q k) : PatchLeads c w q (w.snippet q).blob k := by
  cases k with
  | relocInsn | springboard => exact site
  | relocBlk =>
    simp only [Site] at site
    split_ifs at site
    · exact .inl site
    · exact .inr site
  | trap =>
    obtain ⟨bytes,mode,listed,there,above⟩ := site
    have back : (c.blockOf q).last + 1 - 1 = (c.blockOf q).last := by bv_omega
    refine ⟨bytes,?_⟩
    rw [mode,if_neg (by simp),onTrap,back,listed]
    simpa [above] using there

theorem Live.led (live : Live c log w q k) : Led c w q k := by
  obtain ⟨code,generated,bytes,runs,_⟩ := live.blob
  exact ⟨⟨code,generated,bytes,runs⟩,live.used,live.site.leads⟩

/-- The site depends on the snippet, the trap map and the bytes of its ranges. -/
theorem Site.congr (site : Site c w q k) (snippet : w'.snippet q = w.snippet q)
    (listed : w'.instMap (c.blockOf q).last = w.instMap (c.blockOf q).last)
    (same : ∀ p ∈ sites c w q k, ∀ x, p.Has c x → w'.mem x = w.mem x) : Site c w' q k := by
  cases k with
  | relocInsn =>
    unfold Site
    rw [snippet]
    exact (shortJump_congr (same ⟨q,.last,5⟩ (by simp [sites]))).mpr site
  | relocBlk =>
    simp only [Site] at site ⊢
    rw [snippet]
    have here : ∀ x, In (c.blockOf q).start (callBlockJump (c.blockOf q) (w.snippet q).blob).length x →
        w'.mem x = w.mem x := same ⟨q,.start,_⟩ (List.mem_singleton.mpr rfl)
    split_ifs at site ⊢ with near
    · refine (shortJump_congr fun x inside => here x (inside.widen ?_)).mpr site
      rw [callBlockJump,if_pos near]
      simp
    · refine ⟨site.1,(longJump_congr fun x inside => here x (inside.widen ?_)).mpr site.2⟩
      rw [callBlockJump,if_neg near]
      simp [emitJumpAbs,length_emitPushImm64,jumpAbsSize]
  | springboard =>
    obtain ⟨s,cached,hop,long⟩ := site
    refine ⟨s,by rw [snippet,cached],?_,?_⟩
    · exact (hop_congr (same ⟨q,.start,2⟩ (by simp [sites]))).mpr hop
    · rw [snippet]
      refine (longJump_congr fun x inside => ?_).mpr long
      have second : In (c.obj.block s).start (jumpAbsSize * 2) x := inside.shift (by decide) (by decide)
      exact same ⟨q,.spring s,jumpAbsSize * 2⟩ (by simp [sites,cached]) x second
  | trap =>
    obtain ⟨bytes,mode,registered,there,above⟩ := site
    refine ⟨?_,mode,by rw [listed,registered],by rwa [snippet],by rwa [snippet]⟩
    have small : (trapBytes c).length ≤ 2 ^ 64 := Nat.le_trans (length_trapBytes c) (by decide)
    exact (bytesAt_congr small (same ⟨q,.last,(trapBytes c).length⟩ (by simp [sites]))).trans bytes

theorem Live.spared (layout : Layout c) (live : Live c log w q k) (method : w.method q = some k) (spares : Spares c q w w')
    (listed : w'.instMap (c.blockOf q).last = w.instMap (c.blockOf q).last)
    (same : ∀ p ∈ log, ∀ x, p.Has c x → w'.mem x = w.mem x) (more : ∀ p ∈ log, p ∈ log') : Live c log' w' q k := by
  obtain ⟨code,generated,bytes,runs,away⟩ := live.blob
  have its : ∀ x, In (w.snippet q).blob code.length x → Occupied c w q x := fun x inside =>
    ⟨k,code,method,generated,inside⟩
  have small : code.length ≤ 2 ^ 64 := Nat.le_of_not_lt fun large =>
    away (c.blockOf q).start (Nat.lt_trans (BitVec.isLt _) large) (layout.hasCode_start q)
  refine ⟨⟨code,?_,?_,?_,?_⟩,?_,?_,?_⟩
  · rw [spares.snippet,generated]
  · rw [spares.snippet]
    exact (bytesAt_congr small fun x inside => spares.mem x (its x inside)).trans bytes
  · rw [spares.snippet]
    exact runs.mono spares.rwx
  · rw [spares.snippet]
    exact away
  · have first : Occupied c w q (w.snippet q).blob := by
      refine its _ ?_
      have base : In (w.snippet q).blob code.length ((w.snippet q).blob + BitVec.ofNat 64 0) :=
        in_base (generate_pos generated) small
      rwa [BitVec.add_zero] at base
    rw [spares.snippet,Bool.eq_false_iff]
    intro freed
    exact Bool.eq_false_iff.mp live.used (spares.freed _ first freed)
  · exact live.site.congr spares.snippet listed fun p member => same p (live.logged p member)
  · intro p member
    refine more p (live.logged p ?_)
    cases k <;> simpa [sites,spares.snippet] using member

theorem Live.mono (live : Live c log w q k) (more : ∀ p ∈ log, p ∈ log') : Live c log' w q k :=
  ⟨live.blob,live.used,live.site,fun p member => more p (live.logged p member)⟩

theorem codeAt_stored {m : Memory} {p : Word} {bs : List Byte} (held : CodeAt m p bs) :
    ∀ x, In p bs.length x → m x = storeBytes m p bs x := by
  intro x inside
  have back : p + BitVec.ofNat 64 (x - p).toNat = x := by
    rw [BitVec.ofNat_toNat,BitVec.setWidth_eq]
    ring
  rw [storeBytes_inside _ _ _ _ inside,← held _ inside,back]

theorem site_of_jump {blob : Word} (held : CodeAt w.mem (c.blockOf q).start (callBlockJump (c.blockOf q) blob))
    (room : isDisp32 (blob - (c.blockOf q).start - 5) = true ∨ jumpAbsSize ≤ (c.blockOf q).size)
    (its : (w.snippet q).blob = blob) : Site c w q .relocBlk := by
  simp only [Site,its]
  have stored := codeAt_stored held
  split_ifs with near
  · rw [callBlockJump,if_pos near] at stored
    refine (shortJump_congr fun x inside => stored x (inside.widen ?_)).mpr ?_
    · simp
    · rw [shortJump_written,signExtend_disp32 _ near]
      ring
  · have long : callBlockJump (c.blockOf q) blob = emitPushImm64 blob ++ [0xc3] :=
      blockJump_far (Bool.not_eq_true _ ▸ near)
    rw [long] at stored
    refine ⟨room.resolve_left near,(longJump_congr fun x inside => stored x (inside.widen ?_)).mpr longJump_written⟩
    simp [length_emitPushImm64,jumpAbsSize]

/-- The point that an attempt instruments. -/
theorem Kept.live (layout : Layout c) (sound : Sound c w pt) (placed : Placed c w pt k a) (kept : Kept c w pt k a)
    (cached : k = .springboard → ∃ s, (w.snippet pt).springBlk = some s) (done : worker c w pt a k = (.returns true,w'))
    {ps : List Patch} (written : Written c w pt a k ps) : Live c ps (marked c w' pt k) pt k := by
  have atomic := (atomic_worker layout sound placed).mpr kept.meets
  rw [done] at atomic
  obtain ⟨⟨code,generated,bytes,runs⟩,used,leads⟩ : Led c w' pt k := atomic
  obtain ⟨reaches,_,_,holds⟩ := holds_succeeded layout sound.springs placed done
  have final := holds.final
  refine ⟨⟨code,generated,bytes,runs,?_⟩,used,?_,?_⟩
  · change ∀ x, In (w'.snippet pt).blob code.length x → ¬HasCode c x
    rw [final] at generated ⊢
    exact placed.blob k.reloc code generated
  · cases k with
    | relocInsn | springboard => exact leads
    | relocBlk =>
      obtain ⟨_,held⟩ := callBlock_patched placed kept.granted done
      exact site_of_jump held reaches.2.2.2.1 final
    | trap =>
      obtain ⟨listed,there⟩ := trapRun_registers done
      obtain ⟨mode,above⟩ := (kept.meets reaches).1
      exact ⟨leads.1,mode,listed,there,by rw [← final] at above; exact above⟩
  · obtain ⟨_,rfl⟩ := written.resolve_right fun idle => idle.1 reaches
    cases k with
    | relocInsn | trap => exact fun p member => member
    | relocBlk =>
      have granted : a.codePerm = true := kept.granted
      have same : (marked c w' pt .relocBlk).snippet = w'.snippet := rfl
      simp [sites,patches,granted,same,final]
    | springboard =>
      obtain ⟨s,known⟩ := cached rfl
      have chosen : (findSpringboard c w pt).1 = some s := by simp [findSpringboard,known]
      have still : ((marked c w' pt .springboard).snippet pt).springBlk = some s :=
        (marks_ended done).keeps known
      simp [sites,patches,chosen,still,kept.granted.1,kept.granted.2]

theorem Spares.refl (w : World) : Spares c q w w := ⟨rfl,rfl,fun _ _ => rfl,fun _ _ => id,fun _ => id⟩

theorem Spares.trans (first : Spares c q w w') (second : Spares c q w' w'') : Spares c q w w'' := by
  have moved : ∀ x, Occupied c w q x → Occupied c w' q x := by
    rintro x ⟨k,code,method,generated,inside⟩
    exact ⟨k,code,by rw [first.method,method],by rw [first.snippet,generated],by rwa [first.snippet]⟩
  exact ⟨second.snippet.trans first.snippet,second.method.trans first.method,
    fun x its => (second.mem x (moved x its)).trans (first.mem x its),
    fun x its freed => first.freed x its (second.freed x (moved x its) freed),
    fun r member => second.rwx r (first.rwx r member)⟩

theorem Spares.away (spares : Spares c q w w') (away : ∀ x, Occupied c w q x → ¬HasCode c x) (x : Word)
    (its : Occupied c w' q x) : ¬HasCode c x := by
  obtain ⟨k,code,method,generated,inside⟩ := its
  refine away x ⟨k,code,by rw [← spares.method,method],by rw [← spares.snippet,generated],?_⟩
  rwa [← spares.snippet]

theorem Confined.spares {mine : Word → Prop} (confined : Confined mine w w') (marks : Marks c pt w w') (other : q ≠ pt)
    (out : ∀ x, Occupied c w q x → ¬mine x) : Spares c q w w' :=
  ⟨marks.others q other,congrFun marks.method q,fun x its => confined.mem x (out x its),
    fun x its => confined.freed x (out x its),confined.rwx⟩

theorem spares_saved {ok : Bool} (saves : save c w pt k = (ok,w')) (other : q ≠ pt) : Spares c q w w' := by
  have nothing : Confined (fun _ => False) w w' := .saved saves
  exact nothing.spares (marks_saved saves) other fun _ _ => id

theorem Kept.spares (layout : Layout c) (springs : SpringsOk c pt w) (kept : Kept c w pt k a) {r : Result}
    (ended : worker c w pt a k = (r,w')) (other : q ≠ pt) (away : ∀ x, Occupied c w q x → ¬HasCode c x) :
    Spares c q w w' := by
  have confined : Confined (fun x => HasCode c x ∨ InBuffers c w pt a k x) w (worker c w pt a k).2 :=
    Confined.worker layout (fun x => .inl) springs fun x => .inr
  rw [ended] at confined
  refine confined.spares (marks_ended ended) other fun x its => ?_
  rintro (code | buffer)
  · exact away x its code
  · exact kept.buffers q x other its buffer

section
variable {P Q : World → Nat → InstallMethod → Answers → Prop} {new : List Patch} {ok : Bool}

theorem Tries.mono (imp : ∀ w pt k a, P w pt k a → Q w pt k a) (tries : Tries c P pt w new ok w') :
    Tries c Q pt w new ok w' := by
  induction tries with
  | nil w => exact .nil w
  | skipped saves _ ih => exact .skipped saves ih
  | failed saves placed meets fails written _ ih => exact .failed saves placed (imp _ _ _ _ meets) fails written ih
  | done saves placed meets ends written => exact .done saves placed (imp _ _ _ _ meets) ends written

theorem Tries.registers (tries : Tries c P pt w new ok w') : Registers c pt w w' := by
  induction tries with
  | nil w => exact closed_registers.refl w
  | skipped saves _ ih => exact closed_registers.trans (registers_saved saves) ih
  | failed saves _ _ fails _ _ ih =>
    exact closed_registers.trans (closed_registers.trans (registers_saved saves) (registers_ended fails)) ih
  | done saves _ _ ends _ =>
    have both := closed_registers.trans (registers_saved saves) (registers_ended ends)
    exact ⟨both.others,both.own⟩

end

section
variable {new : List Patch} {ok : Bool}

theorem Tries.spares (layout : Layout c) (tries : Tries c (Kept c) pt w new ok w') (springs : Springs c w) (other : q ≠ pt)
    (away : ∀ x, Occupied c w q x → ¬HasCode c x) : Spares c q w w' := by
  induction tries with
  | nil w => exact .refl w
  | skipped saves _ ih =>
    have first := spares_saved saves other
    exact first.trans (ih (springs.marks (marks_saved saves)) (first.away away))
  | failed saves placed kept fails _ _ ih =>
    have first := spares_saved saves other
    have known := springs.marks (marks_saved saves)
    have second := kept.spares layout (known.springsOk pt) fails other (first.away away)
    have both := first.trans second
    exact both.trans (ih (known.marks (marks_ended fails)) (both.away away))
  | done saves placed kept ends _ =>
    have first := spares_saved saves other
    have known := springs.marks (marks_saved saves)
    have both := first.trans (kept.spares layout (known.springsOk pt) ends other (first.away away))
    exact ⟨both.snippet,(if_neg other).trans both.method,both.mem,both.freed,both.rwx⟩

/-- Attempts that all fail leave the code as it was. -/
theorem Tries.unchanged (tries : Tries c (Kept c) pt w new ok w') (fails : ok = false) :
    ∀ x, HasCode c x → w'.mem x = w.mem x := by
  induction tries with
  | nil w => exact fun _ _ => rfl
  | skipped saves _ ih => exact fun x code => (ih fails x code).trans ((quiet_saved saves).code x code)
  | failed saves placed kept failed _ _ ih =>
    have quiet := kept.meets.failed placed (by rw [failed])
    rw [failed] at quiet
    intro x code
    exact (ih fails x code).trans ((quiet.code x code).trans ((quiet_saved saves).code x code))
  | done => cases fails

theorem Tries.live (layout : Layout c) (tries : Tries c (Kept c) pt w new ok w') (sound : Sound c w pt) (done : ok = true) :
    ∃ k, w'.method pt = some k ∧ Live c new w' pt k := by
  induction tries with
  | nil w => cases done
  | skipped saves _ ih => exact ih ((quiet_saved saves).sound layout sound) done
  | failed saves placed kept failed _ _ ih =>
    have quiet := kept.meets.failed placed (by rw [failed])
    rw [failed] at quiet
    obtain ⟨k,method,live⟩ := ih (quiet.sound layout ((quiet_saved saves).sound layout sound)) done
    exact ⟨k,method,live.mono fun p => List.mem_append_right _⟩
  | @done _ _ _ k _ _ saves placed kept ends written =>
    refine ⟨k,if_pos rfl,?_⟩
    refine kept.live layout ((quiet_saved saves).sound layout sound) placed (fun mode => ?_) ends written
    subst mode
    exact saved_springBlk saves

end

/-- A patch of another block does not reach the block's last instruction. -/
theorem Patch.Fits.misses (layout : Layout c) {p : Patch} (fits : p.Fits c)
    (differ : (c.point p.pt).block ≠ (c.point q).block) : ¬p.Has c (c.blockOf q).last := by
  have here := layout.inside_last q
  intro has
  rcases fits.inside layout has with ⟨_,inside⟩ | ⟨s,_,front⟩
  · exact layout.apart _ _ differ _ inside here
  · have split := layout.last s
    by_cases same : s = (c.point q).block
    · subst same
      refine layout.front_apart _ _ front ?_
      have call := layout.call q
      change In (c.blockOf q).last (c.blockOf q).callSize (c.blockOf q).last
      simp only [In,BitVec.sub_self,BitVec.toNat_zero]
      omega
    · exact layout.apart _ _ same _ (front.widen (by omega)) here

end

section
variable (c : Config)

/-- What holds between the installations of a run: call instructions of five bytes are known
by their opcode in the blocks that are not yet instrumented, and every instrumented
point is live. -/
structure Standing (log : List Patch) (w : World) : Prop where
  recorded : Recorded c w log
  springs : Springs c w
  traps : Traps c w
  calls : ∀ p, w.instrumented (c.point p).block = false → w.mem (c.blockOf p).last = 0xe8 → (c.blockOf p).callSize = 5
  live : ∀ q k, w.method q = some k → Live c log w q k

/-- A world in which nothing has been installed. -/
structure Untried (w : World) : Prop where
  springs : ∀ q, (w.snippet q).springBlk = none
  methods : ∀ q, w.method q = none
  traps : ∀ x, w.instMap x = none
  calls : ∀ p, w.mem (c.blockOf p).last = 0xe8 → (c.blockOf p).callSize = 5

end

section
variable {c : Config} {pt : Nat} {w w' : World} {log new : List Patch} {ok : Bool}

theorem Standing.sound (standing : Standing c log w) (unmarked : w.instrumented (c.point pt).block = false) :
    Sound c w pt :=
  ⟨standing.calls pt unmarked,standing.traps.keys,standing.springs.springsOk pt⟩

/-- A call instruction in a block that is still unmarked is the original one. -/
theorem Standing.calls_next (layout : Layout c) (standing : Standing c log w)
    (tries : Tries c (Kept c) pt w new ok w') (p : Nat) (bare : w'.instrumented (c.point p).block = false)
    (opcode : w'.mem (c.blockOf p).last = 0xe8) : (c.blockOf p).callSize = 5 := by
  have clear : Tries c (Clear c) pt w new ok w' := tries.mono fun _ _ _ _ kept => kept.clear
  obtain ⟨⟨u,marks,ends⟩,news⟩ := clear.result layout standing.springs
  rcases ends with ⟨fails,rfl⟩ | ⟨k,_,rfl⟩
  · rw [marks.marked] at bare
    rw [tries.unchanged fails _ (layout.hasCode_last p)] at opcode
    exact standing.calls p bare opcode
  · obtain ⟨differ,bare⟩ := Bool.or_eq_false_iff.mp bare
    rw [marks.marked] at bare
    have kept := clear.code_kept (layout.hasCode_last p) fun n new => by
      have own := news n new
      refine own.known.fits.misses layout ?_
      rw [own.own]
      exact fun same => by simp [same] at differ
    rw [kept] at opcode
    exact standing.calls p bare opcode

/-- The point that is tried is live if it is marked, for before it was not. -/
theorem Standing.live_own (layout : Layout c) (standing : Standing c log w)
    (unmarked : w.instrumented (c.point pt).block = false) (tries : Tries c (Kept c) pt w new ok w')
    (k : InstallMethod) (method : w'.method pt = some k) : Live c (log ++ if ok then new else []) w' pt k := by
  have clear : Tries c (Clear c) pt w new ok w' := tries.mono fun _ _ _ _ kept => kept.clear
  obtain ⟨⟨u,marks,ends⟩,_⟩ := clear.result layout standing.springs
  cases ok with
  | true =>
    obtain ⟨k',made,alive⟩ := tries.live layout (standing.sound unmarked) rfl
    obtain rfl := Option.some.inj (made.symm.trans method)
    exact alive.mono fun p => List.mem_append_right _
  | false =>
    obtain ⟨_,rfl⟩ := ends.resolve_right (by simp)
    rw [marks.method] at method
    have mark := standing.traps.marked pt k method
    rw [unmarked] at mark
    cases mark

/-- Another point stays live: the attempts spare it and their patches miss its own. -/
theorem Standing.live_other (layout : Layout c) (standing : Standing c log w)
    (unmarked : w.instrumented (c.point pt).block = false) (tries : Tries c (Kept c) pt w new ok w')
    {q : Nat} (own : q ≠ pt) (k : InstallMethod) (method : w'.method q = some k) :
    Live c (log ++ if ok then new else []) w' q k := by
  obtain ⟨recorded,springs,traps,_,live⟩ := standing
  have clear : Tries c (Clear c) pt w new ok w' := tries.mono fun _ _ _ _ kept => kept.clear
  have across := recorded.apart_new layout springs unmarked clear
  have old : w.method q = some k := by rw [← (clear.others layout springs q own).2,method]
  have alive := live q k old
  obtain ⟨code,generated,_,_,away⟩ := alive.blob
  have spares := tries.spares layout springs own fun x its => by
    obtain ⟨k',code',method',generated',inside⟩ := its
    obtain rfl := Option.some.inj (method'.symm.trans old)
    obtain rfl := Option.some.inj (generated'.symm.trans generated)
    exact away x inside
  have differ : (c.point q).block ≠ (c.point pt).block := by
    intro same
    have mark := traps.marked q k old
    rw [same,unmarked] at mark
    cases mark
  refine alive.spared layout old spares (tries.registers.others _ (layout.last_ne differ)) (fun p member x has => ?_)
    fun p => List.mem_append_left _
  have code : HasCode c x := by
    rcases (recorded.known p member).fits.inside layout has with ⟨_,inside⟩ | ⟨s,_,inside⟩
    · exact ⟨_,inside⟩
    · exact ⟨s,inside.widen (layout.last s ▸ Nat.le_add_right _ _)⟩
  exact tries.code_kept code fun n listed => across p member n listed x has

theorem Standing.next (layout : Layout c) (standing : Standing c log w)
    (unmarked : w.instrumented (c.point pt).block = false) (tries : Tries c (Kept c) pt w new ok w') :
    Standing c (log ++ if ok then new else []) w' := by
  have clear : Tries c (Clear c) pt w new ok w' := tries.mono fun _ _ _ _ kept => kept.clear
  obtain ⟨⟨u,marks,ends⟩,_⟩ := clear.result layout standing.springs
  refine ⟨standing.recorded.next layout standing.springs unmarked clear,?_,tries.traps layout standing.traps unmarked,
    standing.calls_next layout tries,fun q k method => ?_⟩
  · have found : Springs c u := standing.springs.marks marks
    rcases ends with ⟨_,rfl⟩ | ⟨k,_,rfl⟩
    · exact found
    · exact ⟨found.known,found.distinct⟩
  · by_cases own : q = pt
    · subst own
      exact standing.live_own layout unmarked tries k method
    · exact standing.live_other layout unmarked tries own k method

theorem Untried.standing (untried : Untried c w) : Standing c [] w where
  recorded := ⟨by simp,by simp,by simp⟩
  springs := ⟨by simp [untried.springs],by simp [untried.springs]⟩
  traps := ⟨by simp [untried.traps],by simp [untried.methods],by simp [untried.methods]⟩
  calls p _ := untried.calls p
  live := by simp [untried.methods]

theorem Installs.standing (layout : Layout c) (untried : Untried c w) (installs : Installs c (Kept c) w log w') :
    Standing c log w' := by
  induction installs with
  | start => exact untried.standing
  | next _ unmarked tries ih => exact ih.next layout unmarked tries

/-- Instrumented points stay instrumented. In every run of installations whose attempts are
clear of other points' spring blocks, atomic and given buffers of their own, the code at
every point that was instrumented leads to its complete, executable blob. -/
theorem installed_led (layout : Layout c) (w w' : World) (untried : Untried c w) (log : List Patch)
    (installs : Installs c (Kept c) w log w') (q : Nat) (k : InstallMethod) (method : w'.method q = some k) :
    Led c w' q k :=
  ((installs.standing layout untried).live q k method).led

end

/-- Both points of the tail-call block's object, one after the other. -/
def tailWorld : World := marked tailNear (worker tailNear nearWorld 1 (tailAnswers 0x520000) .relocBlk).2 1 .relocBlk

def bothWorld : World := marked tailNear (worker tailNear tailWorld 0 (tailAnswers 0x500000) .relocInsn).2 0 .relocInsn

theorem usable_fresh {c : Config} {w : World} {pt : Nat} {a : Answers} {k : InstallMethod}
    (fresh : (w.snippet pt).blobSize = 0) (kind : k = .relocInsn ∨ k = .relocBlk)
    (made : ((c.snippet pt).generate c.lib k.reloc (blobBuffer c w pt a k)).isSome = true) : Usable c w pt a k := by
  obtain ⟨code,generated⟩ := Option.isSome_iff_exists.mp made
  have other : k ≠ .trap := by rintro rfl; simp at kind
  exact ⟨⟨code,generated,.inl fresh,.inl ⟨other,.inl fresh⟩⟩,kind.elim .inl fun block => .inr (.inl block)⟩

theorem tailNear_third (reloc : Bool) (code : List Byte)
    (generated : (tailNear.snippet 0).generate tailNear.lib reloc 0x500000 = some code) : code.length = 386 := by
  have length : ((tailNear.snippet 0).generate tailNear.lib reloc 0x500000).map List.length = some 386 := by
    cases reloc <;> decide +kernel
  rw [generated,Option.map_some,Option.some.injEq] at length
  exact length

theorem tailWorld_installs : Installs tailNear (Kept tailNear) nearWorld [⟨1,.start,5⟩] tailWorld := by
  have placed : Placed tailNear nearWorld 1 .relocBlk (tailAnswers 0x520000) :=
    tailNear_placed _ rfl (.inr rfl) tailNear_second (by simp)
  have reaches : Reaches tailNear nearWorld 1 (tailAnswers 0x520000) .relocBlk := by
    refine ⟨by change (0x520000 : Word) ≠ 0; decide,.inr (by decide +kernel),?_⟩
    exact ⟨by decide,.inl (by decide +kernel),by decide +kernel,rfl,by decide⟩
  have kept : Kept tailNear nearWorld 1 .relocBlk (tailAnswers 0x520000) := by
    refine ⟨fun _ => ⟨fun _ _ => by simp [nearWorld,SnippetState.fresh],fun no => by cases no⟩,fun _ => ⟨.inl rfl,?_⟩,rfl,?_⟩
    · exact usable_fresh rfl (.inr rfl) (by decide +kernel)
    · rintro q x _ ⟨_,_,method,_⟩
      simp [nearWorld] at method
  have written : Written tailNear nearWorld 1 (tailAnswers 0x520000) .relocBlk [⟨1,.start,5⟩] :=
    .inl ⟨reaches,by decide +kernel⟩
  have saves : save tailNear nearWorld 1 .relocBlk = (true,nearWorld) := Prod.ext (by decide +kernel) rfl
  exact .next .start rfl (.done saves placed kept (Prod.ext (by decide +kernel) rfl) written)

theorem returned {run : Result × World} {r : Result} (done : run.1 = r) : run = (r,run.2) := by
  rw [← done]

theorem bothWorld_installs : Installs tailNear (Kept tailNear) nearWorld [⟨1,.start,5⟩,⟨0,.last,5⟩] bothWorld := by
  have buffer : blobBuffer tailNear tailWorld 0 (tailAnswers 0x500000) .relocInsn = 0x500000 := rfl
  have placed : Placed tailNear tailWorld 0 .relocInsn (tailAnswers 0x500000) :=
    tailNear_placed _ buffer (.inl rfl) (fun reloc code generated => by rw [tailNear_third reloc code generated]; decide)
      (by simp)
  have reaches : Reaches tailNear tailWorld 0 (tailAnswers 0x500000) .relocInsn := by
    refine ⟨by rw [buffer]; decide,.inr (by rw [buffer]; decide +kernel),by decide,by decide +kernel,?_⟩
    rw [buffer]
    exact ⟨by decide,by decide,by decide,rfl,rfl⟩
  have kept : Kept tailNear tailWorld 0 .relocInsn (tailAnswers 0x500000) := by
    refine ⟨by simp [Clear],fun _ => ⟨⟨rfl,by rw [buffer]; decide⟩,?_⟩,trivial,?_⟩
    · exact usable_fresh (by decide +kernel) (.inl rfl) (by rw [buffer]; decide +kernel)
    · rintro q x _ ⟨k,code,method,generated,inside⟩ mine
      obtain rfl : q = 1 := by
        by_contra other
        have marks : Marks tailNear 1 nearWorld _ := marks_worker nearWorld (tailAnswers 0x520000) .relocBlk
        have old : tailWorld.method q = nearWorld.method q := (if_neg other).trans (congrFun marks.method q)
        rw [old] at method
        cases method
      have blob : (tailWorld.snippet 1).blob = 0x520000 := by decide +kernel
      rw [blob] at generated inside
      have length := tailNear_second _ _ generated
      rcases mine with rfl | ⟨reloc,made,its,here⟩ | ⟨no,_⟩
      · simp only [In] at inside
        rw [buffer] at inside
        bv_omega
      · rw [buffer] at its here
        have small := tailNear_third reloc made its
        simp only [In] at inside here
        bv_omega
      · cases no
  have saves : save tailNear tailWorld 0 .relocInsn = (true,tailWorld) := Prod.ext (by decide +kernel) rfl
  have ends : worker tailNear tailWorld 0 (tailAnswers 0x500000) .relocInsn =
      (.returns true,(worker tailNear tailWorld 0 (tailAnswers 0x500000) .relocInsn).2) := returned (by decide +kernel)
  have tries : Tries tailNear (Kept tailNear) 0 tailWorld [⟨0,.last,5⟩] true bothWorld :=
    .done saves placed kept ends (.inl ⟨reaches,rfl⟩)
  exact .next tailWorld_installs (by decide +kernel) tries

theorem nearWorld_untried : Untried tailNear nearWorld := by
  refine ⟨fun _ => rfl,fun _ => rfl,fun _ => rfl,fun p _ => ?_⟩
  by_cases one : p = 1
  · subst one
    decide
  · simp only [Config.blockOf,tailNear,one,if_false,ite_self]
    decide

theorem installed_led_bothWorld : Led tailNear bothWorld 1 .relocBlk ∧ Led tailNear bothWorld 0 .relocInsn :=
  ⟨installed_led tailNear_layout nearWorld bothWorld nearWorld_untried _ bothWorld_installs 1 .relocBlk (by decide +kernel),
    installed_led tailNear_layout nearWorld bothWorld nearWorld_untried _ bothWorld_installs 0 .relocInsn (by decide +kernel)⟩

end SelfPropelled.Workers
